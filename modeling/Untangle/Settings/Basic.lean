/-
  Untangle.Settings.Basic

  The settings of a run. They are kept as they were given, since documents may give a
  number or a choice in more than one form, and are read through functions that say
  what they mean.
-/
import Untangle.Abstract.Analysis
import Untangle.Entries
import Untangle.Graph.Build
import Untangle.Path
import Untangle.Stage.Kind

namespace Untangle

/-- The settings of one stage. -/
structure StageSettings where
  name : Value
  active : Value := .bool true
  options : Value := .dict []

/-- The settings of a run. -/
structure Settings where
  width : Value := .int 4
  overflow : Value := .str "wrap"
  analysis : Value := .str "forward"
  stages : List StageSettings := StageKind.all.map fun k => { name := .str k.key }
  typeSizes : Value := .dict []
  terminators : List Value := Graph.usualTerminators
  workers : Value := .int 1
  onlyWithDispatch : Value := .bool false
  /-- Where log files go: a path, or a value that stands for nowhere. -/
  logDir : Option Path := none
  noLogDir : Value := .null
  /-- The order in which sets are read. It is the same for all runs of a process, and not for
      documents to give. -/
  schedule : Schedule := .hashed

namespace Settings

/-- The directory for log files, if there is one. A text that stands for nowhere still is
    a path: the directory that one is in. -/
def logPlace (s : Settings) : Except Misuse (Option Path) :=
  match s.logDir, s.noLogDir with
  | some dir, _ => .ok (some dir)
  | none, .null => .ok none
  | none, .str text => .ok (some (Path.ofText text))
  | none, _ => .error .notAText

/-- The overflow policies by name. -/
def policies : List (String × OverflowPolicy) :=
  [("wrap", .wrap), ("trap", .trap)]

/-- The sizes of the primitive types, by their short names. -/
def shortSizes : List (String × Nat) :=
  [("Boolean", 1), ("Byte", 1), ("SByte", 1), ("Char", 2), ("Int16", 2), ("UInt16", 2),
   ("Int32", 4), ("UInt32", 4), ("Int64", 8), ("UInt64", 8), ("Single", 4), ("Double", 8)]

/-- The sizes of the primitive types, by their short and their full names. -/
def primitiveSizes : Table :=
  let sized (full : Bool) : List (String × Value) :=
    shortSizes.map fun (name, size) => (if full then "System." ++ name else name, .int size)
  Table.ofEntries (sized false ++ sized true)

/-- The sizes of types: those given override those of the primitive types. -/
def sizes (s : Settings) : Except Misuse Table :=
  if s.typeSizes.truthy then do return primitiveSizes.updated (← Table.ofValue s.typeSizes)
  else .ok primitiveSizes

/-- The machine that a run is for. -/
def machine (s : Settings) : Except Misuse Machine := do
  return {
    width := .ofValue s.width
    policy := if s.overflow == .str "trap" then .trap else .wrap
    sizes := .ok (← s.sizes) }

/-- The analysis that a run uses. -/
def analysisOf (s : Settings) : Except Misuse Analysis := do
  match s.analysis with
  | .str name =>
    match AnalysisKind.ofName? name with
    | some kind => return { kind, machine := ← s.machine, schedule := s.schedule }
    | none => throw .noSuchKey
  | _ => throw .noSuchPart

/-- The settings of the first entry for a stage. -/
def stage? (s : Settings) (name : String) : Option StageSettings :=
  s.stages.find? fun st => st.name == .str name

/-- Whether a stage is to run, as it was given. -/
def isActive (s : Settings) (name : String) : Value :=
  ((s.stage? name).map (·.active)).getD (.bool false)

/-- The options of a stage, as they were given. -/
def stageOptions (s : Settings) (name : String) : Value :=
  ((s.stage? name).map (·.options)).getD (.dict [])

/-- A stage with options as settings give them; null gives none. -/
def configured (kind : StageKind) (options : Value) : Except Misuse Stage :=
  match options with
  | .null => .ok { kind }
  | v => do return { kind, given := ← Table.ofValue v }

/-- The stages that are to run, in order. -/
def activeKinds (s : Settings) : List StageKind :=
  StageKind.all.filter fun k => (s.isActive k.key).truthy

/-- A stage that is to run, with its options. -/
def stageOf (s : Settings) (kind : StageKind) : Except Misuse Stage :=
  configured kind (s.stageOptions kind.key)

/-- Refuses settings with a value that is not among the choices. -/
def validate (s : Settings) : Except Fault Unit := do
  let width ← s.width.asKey
  if (width.wholeNumber?.bind Width.ofBytes?).isNone then throw (.setting (.badWidth s.width))
  if !policies.any fun (name, _) => s.overflow == .str name then
    throw (.setting (.unknownOverflow s.overflow))
  if !AnalysisKind.all.any fun k => s.analysis == .str k.name then
    throw (.setting (.unknownAnalysis s.analysis))
  if ← Fault.lift (s.workers.isBelow 1) then throw (.setting (.tooFewWorkers s.workers))
  s.stages.forM fun st => do
    let name ← st.name.asKey
    if !StageKind.all.any fun k => name == .str k.key then
      throw (.setting (.unknownStage st.name))

end Settings

end Untangle
