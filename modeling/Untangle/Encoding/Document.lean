/-
  Untangle.Encoding.Document

  Files of methods in JSON.
-/
import Untangle.Encoding.Decode
import Untangle.Encoding.Encode
import Untangle.Json.Reader
import Untangle.Json.Writer

namespace Untangle.Encoding

/-- The document that holds methods. -/
def document (methods : List Method) : Value :=
  .dict [("methods", .list (methods.map method))]

/-- The text of a file of methods. -/
def fileText (methods : List Method) : String :=
  Json.indented (document methods)

/-- Reads the text of a file of methods. -/
def readText (text : String) : Except Fault (List Method) :=
  match Json.parse? text with
  | some v => readDocument v
  | none => .error .badDocument

end Untangle.Encoding
