/-
  Untangle.Value.Display

  The text of a value in messages and listings: a text by itself is shown as it is,
  inside another value (or where asked for) in quotation marks.
-/
import Untangle.Number.Shortest
import Untangle.Text.Quoted
import Untangle.Value.Basic

namespace Untangle.Value

/-- Items with a comma and a space between them. -/
def commaList (texts : List String) : String :=
  String.intercalate ", " texts

mutual

/-- A value with texts in quotation marks. -/
def quoted : Value → String
  | .null => "None"
  | .bool true => "True"
  | .bool false => "False"
  | .int n => toString n
  | .float x => Number.floatText x
  | .notANumber _ => Number.Layout.plain.notANumber
  | .str s => Text.quoted s
  | .list items => "[" ++ commaList (quotedItems items) ++ "]"
  | .tuple [v] => "(" ++ v.quoted ++ ",)"
  | .tuple items => "(" ++ commaList (quotedItems items) ++ ")"
  | .dict entries => "\x7b" ++ commaList (quotedEntries entries) ++ "\x7d"

/-- The items of a list in quotation marks. -/
def quotedItems : List Value → List String
  | [] => []
  | v :: rest => v.quoted :: quotedItems rest

/-- The entries of a dictionary, key and value in quotation marks. -/
def quotedEntries : List (String × Value) → List String
  | [] => []
  | (k, v) :: rest => (Text.quoted k ++ ": " ++ v.quoted) :: quotedEntries rest

end

/-- A value as it is shown by itself. -/
def display : Value → String
  | .str s => s
  | v => v.quoted

end Untangle.Value
