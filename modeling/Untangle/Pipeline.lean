/-
  Untangle.Pipeline

  Normalizing one method. The work is done on a copy; either every stage succeeds and
  the result has no defects, or the method stays as it was.
-/
import Untangle.Graph.Loops
import Untangle.Stage.Run

namespace Untangle

/-- What came of normalizing a method. -/
structure Outcome where
  name : Value
  /-- The replacement if the method was rewritten, and the method itself otherwise. -/
  body : Method
  rewritten : Bool := false
  reason : String := ""
  switchesResolved : Int := 0
  loopsDetected : Int := 0
  /-- Changes by stage, in the order in which the stages ran. -/
  changes : List (String × Int) := []
  issues : List Issue := []
  reverted : Bool := false
  skipped : Bool := false

namespace Outcome

/-- The number of changes of all stages. -/
def totalChanges (o : Outcome) : Int :=
  Number.total (o.changes.map (·.2))

/-- The method was left out because it has no dispatch. -/
def skip (m : Method) : Outcome :=
  { name := m.name, body := m, reason := "no dispatch", skipped := true }

/-- The method stays as it was because of a fault. -/
def revert (m : Method) (f : Fault) : Outcome :=
  match f with
  | .inconsistent issues =>
    { name := m.name, body := m, issues, reverted := true
      reason := "structural inconsistency: " ++ Issue.summary issues }
  | f =>
    { name := m.name, body := m, reverted := true
      reason := "internal error: " ++ f.message?.getD "" }

end Outcome

namespace Pipeline

/-- Under this name the removal of blocks out of reach is counted. -/
def unreachableKey : String := "unreachable_blocks"

/-- Adds to the count of a stage. -/
def addChanges (changes : List (String × Nat)) (key : String) (count : Nat) :
    List (String × Nat) :=
  Entries.update key (fun n => n.getD 0 + count) changes

/-- Resolves dispatches again after pruning, for as long as that resolves more. Each
    round but the last has one dispatch less, so their number bounds the rounds. -/
def resolveAgain (s : Stage) : Nat → List (String × Nat) → Work (List (String × Nat))
  | 0, changes => pure changes
  | rounds + 1, changes => do
    let dead ← Work.prune
    Work.invalidate
    let count ← s.run
    let changes := addChanges changes unreachableKey dead.length
    let changes := addChanges changes s.kind.key count
    if count == 0 then return changes else resolveAgain s rounds changes

/-- The number of dispatches in a graph. -/
def dispatchCount (g : Graph) : Nat :=
  g.code.countP fun ins => ins.opcode == some .switch

/-- Runs one stage and counts its changes. Resolving one dispatch can show the selector
    of the next, so that stage is repeated. -/
def runStage (changes : List (String × Nat)) (s : Stage) : Work (List (String × Nat)) := do
  let count ← s.run
  let changes := addChanges changes s.kind.key count
  if count == 0 then return changes
  Work.log "CFEX.engine" Level.debug
    (s.kind.title ++ " made " ++ toString count ++ " change(s)")
  Work.invalidate
  if s.kind == .switchResolver then
    resolveAgain s (dispatchCount (← get).graph + 1) changes
  else return changes

/-- The backward branches that are left. -/
def countLoops : Work Nat := do
  let g := (← get).graph
  Work.check g.checkLoops
  let edges := g.backEdges
  if !edges.isEmpty then
    Work.log "CFEX.analysis" Level.debug
      (toString edges.length ++ " backward branch(es) left as-is")
  return edges.length

/-- The message about a graph that has been built. -/
def builtNote (g : Graph) : Note :=
  { logger := "CFEX.cfg", level := Level.debug
    text := "Built " ++ toString g.blocks.length ++ " block(s) over " ++ toString g.code.length
      ++ " instruction(s), " ++ toString g.spans.length ++ " region(s), "
      ++ toString g.exits.length ++ " exit(s)" }

/-- Makes a stage ready with its options, and warns of those that it does not know. -/
def prepare (settings : Settings) (kind : StageKind) : Work Stage := do
  match settings.stageOf kind with
  | .ok stage =>
    stage.warnUnknown
    return stage
  | .error e => throw (.misuse e)

/-- Runs the stages on a graph that has just been built. -/
def work (settings : Settings) (m : Method) : Work Outcome := do
  let built := builtNote (← get).graph
  Work.log built.logger built.level built.text
  let dead ← Work.prune
  let analysis ← match settings.analysisOf with
    | .ok a => pure a
    | .error e => throw (.misuse e)
  modify fun w => { w with analysis }
  let stages ← settings.activeKinds.mapM fun kind => prepare settings kind
  let changes ← stages.foldlM runStage [(unreachableKey, dead.length)]
  let loops ← countLoops
  let issues := (← get).issues
  if !issues.isEmpty then throw (.inconsistent issues)
  let counts := changes.map fun (key, n) => (key, (n : Int))
  if changes.all fun (_, n) => n == 0 then
    return { name := m.name, body := m, reason := "no applicable patterns",
             loopsDetected := loops, changes := counts }
  let body ← Work.commit []
  let resolved := (changes.lookup StageKind.switchResolver.key).getD 0
  Work.log "CFEX.engine" Level.info
    ("Rewrote " ++ m.name.display ++ ": " ++ toString m.code.length ++ " -> "
      ++ toString body.code.length ++ " instruction(s), " ++ toString resolved
      ++ " dispatch site(s) resolved")
  return { name := m.name, body, rewritten := true, reason := "rewritten",
           switchesResolved := resolved, loopsDetected := loops, changes := counts }

/-- The message about a method that stays as it was because of a fault. -/
def revertNote (m : Method) (f : Fault) : Note :=
  match f with
  | .inconsistent issues =>
    { logger := "CFEX.engine", level := Level.info, method := m.name
      text := "Reverting " ++ m.name.display ++ ": " ++ Issue.summary issues }
  | _ =>
    { logger := "CFEX.engine", level := Level.error, method := m.name
      text := "Unexpected error while normalizing " ++ m.name.display }

/-- Normalizes a method, and gives the messages on the way. -/
def run (settings : Settings) (m : Method) : Outcome × List Note :=
  let copy := m.copy
  match Graph.build copy settings.terminators with
  | .error f => (.revert m f, [revertNote m f])
  | .ok graph =>
    match (work settings m).run { graph, analysis := {}, method := m.name } with
    | .ok outcome w => (outcome, w.journal.toList)
    | .error f w => (.revert m f, w.journal.toList ++ [revertNote m f])

end Pipeline

/-- Normalizes a method. -/
def Method.normalize (m : Method) (settings : Settings := {}) : Outcome :=
  (Pipeline.run settings m).1

end Untangle
