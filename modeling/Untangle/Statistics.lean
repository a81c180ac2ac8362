/-
  Untangle.Statistics

  Totals over the methods of a batch, and the events that recording them gives rise to.
-/
import Untangle.Pipeline
import Untangle.Value.Sum

namespace Untangle

/-- What statistics are told about a method. The counts may be numbers of any kind; the
    changes by stage are missing where none are told. -/
structure MethodReport where
  name : Value := .str "m"
  rewritten : Bool := false
  reason : Value := .str ""
  switchesResolved : Value := .int 0
  loopsDetected : Value := .int 0
  changes : Option (List (String × Value)) := some []
  reverted : Bool := false
  skipped : Bool := false

namespace MethodReport

/-- The parts that a report may give. Not all of them count in statistics. -/
def parts : List String :=
  ["name", "body", "rewritten", "reason", "switches_resolved", "loops_detected", "changes",
   "issues", "reverted", "skipped", "elapsed"]

/-- Reads a report from an object; parts that it does not give are as usual. -/
def ofValue (v : Value) : Except Misuse MethodReport := do
  let .dict entries := v | throw .notIterable
  if entries.any fun (key, _) => !parts.contains key then throw .wrongFields
  let given (key : String) (usual : Value) : Value := (entries.lookup key).getD usual
  let changes :=
    match given "changes" (.dict []) with
    | .dict counts => some counts
    | _ => none
  let usual : MethodReport := {}
  return {
    name := given "name" usual.name
    rewritten := (given "rewritten" (.bool false)).truthy
    reason := given "reason" usual.reason
    switchesResolved := given "switches_resolved" usual.switchesResolved
    loopsDetected := given "loops_detected" usual.loopsDetected
    changes
    reverted := (given "reverted" (.bool false)).truthy
    skipped := (given "skipped" (.bool false)).truthy }

end MethodReport

/-- What statistics are told about an outcome. -/
def Outcome.report (o : Outcome) : MethodReport :=
  { name := o.name
    rewritten := o.rewritten
    reason := .str o.reason
    switchesResolved := .int o.switchesResolved
    loopsDetected := .int o.loopsDetected
    changes := some (o.changes.map fun (stage, count) => (stage, .int count))
    reverted := o.reverted
    skipped := o.skipped }

/-- The stages that changed a method, with their counts. -/
def MethodReport.stagesChanged (r : MethodReport) : List (String × Value) :=
  (r.changes.getD []).filter fun (_, count) => count.truthy

/-- What happens while a batch is recorded. -/
inductive Event where
  | batchStart (count : Nat)
  | stageChanges (stage : String) (count : Value)
  | methodRewritten (name : Value)
  | methodReverted (name : Value)
  | methodUnchanged (name : Value)
  | methodSkipped (name : Value)
  | batchEnd (seen : Nat)

namespace Event

/-- The name of an event. -/
def name : Event → String
  | .batchStart _ => "BATCH_START"
  | .stageChanges _ _ => "STAGE_CHANGES"
  | .methodRewritten _ => "METHOD_REWRITTEN"
  | .methodReverted _ => "METHOD_REVERTED"
  | .methodUnchanged _ => "METHOD_UNCHANGED"
  | .methodSkipped _ => "METHOD_SKIPPED"
  | .batchEnd _ => "BATCH_END"

/-- The events that recording a method gives rise to. -/
def ofReport (r : MethodReport) : List Event :=
  if r.skipped then [.methodSkipped r.name]
  else if r.rewritten then
    r.stagesChanged.map (fun (stage, count) => .stageChanges stage count)
      ++ [.methodRewritten r.name]
  else if r.reverted then [.methodReverted r.name]
  else [.methodUnchanged r.name]

end Event

/-- Totals over the methods recorded so far. -/
structure Statistics where
  seen : Nat := 0
  rewritten : Nat := 0
  reverted : Nat := 0
  unchanged : Nat := 0
  skipped : Nat := 0
  switchesResolved : Value := .int 0
  loopsDetected : Value := .int 0
  /-- The counts of changes by stage, one for each method that the stage changed. -/
  stageChanges : List (String × List Value) := []
  /-- Why methods were reverted, by name. -/
  revertedReasons : Table := []

namespace Statistics

/-- The table with one more count for a stage. -/
def addCount (stage : String) (count : Value) (table : List (String × List Value)) :
    List (String × List Value) :=
  Entries.update stage (fun counts => counts.getD [] ++ [count]) table

/-- The totals with one more method that was rewritten. -/
def recordRewritten (s : Statistics) (r : MethodReport) : Except Misuse Statistics := do
  let switchesResolved ← s.switchesResolved.plus r.switchesResolved
  if r.changes.isNone then throw .noSuchPart
  return { s with
    rewritten := s.rewritten + 1
    switchesResolved
    stageChanges := r.stagesChanged.foldl
      (fun table (stage, count) => addCount stage count table) s.stageChanges }

/-- The totals with one more method. -/
def record (s : Statistics) (r : MethodReport) : Except Misuse Statistics := do
  let loopsDetected ← s.loopsDetected.plus r.loopsDetected
  let s := { s with seen := s.seen + 1, loopsDetected }
  if r.skipped then return { s with skipped := s.skipped + 1 }
  else if r.rewritten then s.recordRewritten r
  else if r.reverted then
    return { s with
      reverted := s.reverted + 1
      revertedReasons := Entries.put (← r.name.asKey) r.reason s.revertedReasons }
  else return { s with unchanged := s.unchanged + 1 }

/-- The totals over a list of methods. -/
def recordAll (s : Statistics) (reports : List MethodReport) : Except Misuse Statistics :=
  reports.foldlM record s

/-- The totals as an object. -/
def summary (s : Statistics) : Except Misuse (List (String × Value)) := do
  let changes ← s.stageChanges.mapM fun (stage, counts) => do
    return (stage, ← Value.total counts)
  return [
    ("methods_seen", .int s.seen), ("methods_rewritten", .int s.rewritten),
    ("methods_reverted", .int s.reverted), ("methods_unchanged", .int s.unchanged),
    ("methods_skipped", .int s.skipped), ("switches_resolved", s.switchesResolved),
    ("loops_detected", s.loopsDetected), ("stage_changes", .dict changes)]

/-- The line about the changes of a stage. -/
def stageLine (stage : String) (counts : List Value) : Except Misuse String := do
  let total ← (← Value.total counts).towardZero
  return "Stage '" ++ stage ++ "' changed " ++ toString counts.length ++ " method(s) ("
    ++ toString total ++ " change(s))"

/-- The totals in words, a message a line. -/
def report (s : Statistics) : Except Misuse (List String) := do
  let resolved ← s.switchesResolved.towardZero
  let stages ← s.stageChanges.mapM fun (stage, counts) => stageLine stage counts
  return [
    "Normalized " ++ toString s.seen ++ " method(s): " ++ toString s.rewritten ++ " rewritten, "
      ++ toString s.reverted ++ " reverted, " ++ toString s.unchanged ++ " unchanged, "
      ++ toString s.skipped ++ " skipped",
    "Cases fixed: " ++ toString resolved]
    ++ stages
    ++ s.revertedReasons.map fun (name, reason) =>
      "Reverted " ++ name.display ++ ": " ++ reason.display

/-- The totals in words, as messages. -/
def reportNotes (s : Statistics) : Except Misuse (List Note) := do
  return (← s.report).map fun text => { logger := "CFEX", level := Level.info, text }

end Statistics

end Untangle
