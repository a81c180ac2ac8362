/-
  Untangle.Settings.Document

  Settings as documents: reading them from an object, writing them back with every
  setting named, and the settings that apply where there is no document.
-/
import Untangle.Json.Reader
import Untangle.Json.Writer
import Untangle.Settings.Basic

namespace Untangle

namespace StageSettings

/-- The fields of the settings of a stage. -/
def fields : List String := ["name", "is_activated", "config"]

/-- Reads the settings of a stage: a name, and the two other parts or not. -/
def read (v : Value) : Except Misuse StageSettings :=
  match v with
  | .dict entries =>
    if entries.any fun (key, _) => !fields.contains key then
      .error .wrongFields
    else
      match entries.lookup "name" with
      | some name => .ok {
          name
          active := (entries.lookup "is_activated").getD (.bool true)
          options := (entries.lookup "config").getD (.dict []) }
      | none => .error .wrongFields
  | _ => .error .wrongFields

/-- Writes the settings of a stage. -/
def write (s : StageSettings) : Value :=
  .dict [("name", s.name), ("is_activated", s.active), ("config", s.options)]

end StageSettings

namespace Settings

/-- The names of the settings, in the order in which they are written. -/
def keys : List String :=
  ["int_width", "overflow", "analysis", "stages", "type_sizes", "terminators", "workers",
   "only_with_dispatch", "log_dir"]

/-- Reads the settings that a document gives; the others are as usual. -/
def read (document : Value) : Except Fault Settings := do
  let table ← Fault.lift (Table.ofValue document)
  let usual : Settings := {}
  let given (key : String) (default : Value) : Value := (table.get? key).getD default
  let stages ← match table.get? "stages" with
    | some v => do
      let list ← Fault.lift v.items
      list.mapM fun s => Fault.lift (StageSettings.read s)
    | none => pure usual.stages
  let terminators ← match table.get? "terminators" with
    | some v => Fault.lift v.items
    | none => pure usual.terminators
  let dir := given "log_dir" .null
  let logDir ←
    if !dir.truthy then pure none
    else
      match dir with
      | .str s => pure (some (Path.ofText s))
      | _ => throw (.misuse .notAText)
  let unknown := table.keysBeyond keys
  if !unknown.isEmpty then
    throw (.setting (.unknownKeys (← Fault.lift (Value.sorted unknown))))
  let settings : Settings := {
    stages, terminators, logDir
    width := given "int_width" usual.width
    overflow := given "overflow" usual.overflow
    analysis := given "analysis" usual.analysis
    typeSizes := given "type_sizes" usual.typeSizes
    workers := given "workers" usual.workers
    onlyWithDispatch := given "only_with_dispatch" usual.onlyWithDispatch
    noLogDir := if logDir.isSome then .null else dir }
  settings.validate
  return settings

/-- Reads the settings in the text of a file. -/
def readText (text : String) : Except Fault Settings :=
  match Json.parse? text with
  | some v => read v
  | none => .error .badDocument

/-- Writes settings, every one of them. -/
def write (s : Settings) : Except Misuse Value := do
  return .dict [
    ("int_width", s.width), ("overflow", s.overflow), ("analysis", s.analysis),
    ("stages", .list (s.stages.map StageSettings.write)),
    ("type_sizes", (← Table.ofValue s.typeSizes).toObject),
    ("terminators", .list s.terminators), ("workers", s.workers),
    ("only_with_dispatch", s.onlyWithDispatch),
    ("log_dir", match s.logDir with
      | some p => .str p.text
      | none => .null)]

/-- The text of a file of settings. -/
def fileText (s : Settings) : Except Misuse String := do
  return Json.indented (← s.write)

/-- Whether two settings are written with the same document. -/
def sameWritten (a b : Settings) : Except Misuse Bool := do
  let sizesA ← Table.ofValue a.typeSizes
  let sizesB ← Table.ofValue b.typeSizes
  return sizesA.same sizesB && (← a.write) == (← b.write)

/-- The document of the settings that come with the library. -/
def bundled : Value :=
  let stage (k : StageKind) (options : List (String × Value)) : Value :=
    StageSettings.write { name := .str k.key, options := .dict options }
  .dict [
    ("int_width", .int 4), ("overflow", .str "wrap"), ("analysis", .str "forward"),
    ("stages", .list [
      stage .switchResolver [], stage .junkEliminator [],
      stage .constantFolder [("fold_arithmetic", .bool true)], stage .exceptionReconciler []]),
    ("type_sizes", .dict []), ("workers", .int 1), ("only_with_dispatch", .bool false)]

/-- The settings of a user: those of the user's file, or those that come with the
    library. -/
def ofUser (file : Option String) : Except Fault Settings :=
  match file with
  | some text => readText text
  | none => read bundled

end Settings

end Untangle
