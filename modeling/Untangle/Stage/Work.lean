/-
  Untangle.Stage.Work

  Work on one method: the graph as it stands, the facts about it until it changes, the
  defects found so far, and the messages. A stage is an action on this state.
-/
import Untangle.Edit
import Untangle.Graph.Merge
import Untangle.Graph.Relink
import Untangle.Logging.Note
import Untangle.Settings.Basic
import Untangle.Validate

namespace Untangle

/-- The state of the work on one method. -/
structure Workbench where
  graph : Graph
  analysis : Analysis
  /-- The method that messages are about. -/
  method : Value := .str ""
  facts : Option Facts := none
  issues : List Issue := []
  journal : Array Note := #[]

/-- An action on the workbench. What was done before a fault stays done. -/
abbrev Work := EStateM Fault Workbench

namespace Work

/-- Stops with a fault, if there is one. -/
def check (r : Except Misuse Unit) : Work Unit :=
  match r with
  | .ok _ => pure ()
  | .error m => throw (.misuse m)

/-- Writes a message. -/
def log (logger : String) (level : Level) (text : String) : Work Unit :=
  modify fun w =>
    { w with journal := w.journal.push { logger, level, method := w.method, text } }

/-- Puts another graph in place. -/
def setGraph (g : Graph) : Work Unit :=
  modify fun w => { w with graph := g }

/-- The facts about the graph. They are found when first asked for. -/
def facts : Work Facts := do
  let w ← get
  match w.facts with
  | some f => return f
  | none =>
    let findings := w.analysis.findings w.graph
    findings.notes.forM (log "CFEX.analysis" Level.debug)
    match findings.facts with
    | .ok f =>
      modify fun w => { w with facts := some f }
      return f
    | .error m => throw (.misuse m)

/-- Forgets the facts, because the instructions have changed. -/
def invalidate : Work Unit :=
  modify fun w => { w with facts := none }

/-- Notes a defect. -/
def flag (issue : Issue) : Work Unit := do
  log "CFEX.pass" Level.info ("Flagged: " ++ issue.text)
  modify fun w => { w with issues := w.issues ++ [issue] }

/-! ## Pruning -/

/-- Removes the blocks out of reach, and gives their labels. -/
def removeUnreachable : Work (List Int) := do
  let g := (← get).graph
  check g.checkEdges
  let dead := g.unreachable
  if dead.isEmpty then return []
  for b in dead do
    log "CFEX.cfg" Level.debug
      ("Removing unreachable block " ++ toString b.label ++ " (" ++ toString b.code.length
        ++ " instruction(s))")
  setGraph g.removeUnreachable
  return dead.map (·.label)

/-- Joins blocks that need not be apart, and gives the labels that are gone. -/
def merge : Work (List Int) := do
  let g := (← get).graph
  check g.checkTargets
  let gone := g.joinedLabels
  if gone.isEmpty then return []
  setGraph g.merged
  log "CFEX.cfg" Level.debug ("Merged " ++ toString gone.length ++ " fall-through block(s)")
  return gone

/-- Removes the blocks out of reach, then joins what needs no cut any more. Gives the
    labels of the blocks removed. -/
def prune : Work (List Int) := do
  let dead ← removeUnreachable
  if !dead.isEmpty then
    let _ ← merge
  return dead

/-- Computes the edges afresh. -/
def connect : Work Unit := do
  let g := (← get).graph
  setGraph g.connected
  check g.checkLasts

/-! ## Edits -/

/-- The message about an edit that has been queued. -/
def logQueued (e : Edit) : Work Unit :=
  log "CFEX.pass" Level.debug ("Queued " ++ e.kind.name ++ ": " ++ e.shown)

/-- Writes a warning that tells the uid of an edit as a number. If it is none, the warning is
    left out. -/
def warnOfUid (e : Edit) (before after : String) : Work Unit :=
  match e.uid.towardZero with
  | .ok n => log "CFEX.pass" Level.warning (before ++ toString n ++ after)
  | .error _ => pure ()

/-- Messages about edits that do not count, and how many there are. An edit whose uid cannot
    be looked up cannot be told from others. -/
def logCoalesced (edits : List Edit) : Work Nat := do
  let sound := edits.takeWhile (·.uid.isKey)
  for (first, later) in Edit.conflicts sound do
    warnOfUid later "CONFLICT RESOLVED: uid " (" " ++ later.kind.name ++ " - keeping "
      ++ first.change.payloadText ++ ", discarding " ++ later.change.payloadText)
  if sound.length < edits.length then throw (.misuse .notAKey)
  let kept := (Edit.coalesced edits).length
  let dropped := edits.length - kept
  if 0 < dropped then
    log "CFEX.pass" Level.debug
      ("Coalesced modifications: removed " ++ toString dropped ++ " duplicates/conflicts ("
        ++ toString edits.length ++ " -> " ++ toString kept ++ ")")
  return dropped

/-- Writes a warning of an edit that did not apply. -/
def warnFailed (e : Edit) : Work Unit :=
  warnOfUid e ("Could not apply " ++ e.kind.name ++ " to uid ") ""

/-- Makes the edits up to one that names a block with what cannot be looked up, and fails
    there. -/
def applySound (edits : List Edit) : Work Unit := do
  let (changed, failed) := Edit.applyAll (← get).graph (edits.takeWhile (·.block.isKey))
  failed.forM warnFailed
  setGraph changed
  throw (.misuse .notAKey)

/-- Makes queued edits, and gives their number. -/
def applyEdits (edits : List Edit) : Work Nat := do
  if edits.isEmpty then return 0
  let _ ← logCoalesced edits
  let ordered := Edit.inOrder (Edit.coalesced edits)
  if !ordered.all (·.block.isKey) then applySound ordered
  let outcome := (← get).graph.edited edits
  outcome.failed.forM warnFailed
  setGraph outcome.graph
  if 0 < outcome.count then check outcome.graph.checkLasts
  log "CFEX.pass" Level.debug
    ("Applied " ++ toString outcome.count ++ "/" ++ toString outcome.kept.length
      ++ " modifications")
  return outcome.count

/-! ## From the graph back to a method -/

/-- Points every branch at a live instruction, and gives the number of those changed. -/
def relink : Work Nat := do
  let g := (← get).graph
  setGraph g.relinked
  check g.checkTargets
  let count := g.relinkCount
  if 0 < count then
    log "CFEX.reconstruct" Level.debug ("Relinked " ++ toString count ++ " branch operand(s)")
  return count

/-- The method that the graph stands for. -/
def reconstruct : Work Method := do
  let _ ← relink
  return (← get).graph.toMethod

/-- The method that the graph stands for, if it has no defects besides none flagged. -/
def commit (flagged : List Issue) : Work Method := do
  let m ← reconstruct
  let found ← match m.validate with
    | .ok issues => pure issues
    | .error e => throw (.misuse e)
  let issues := flagged ++ found
  if !issues.isEmpty then
    for issue in issues do
      log "CFEX.reconstruct" Level.warning ("Validation failed: " ++ issue.text)
    throw (.inconsistent issues)
  return m

end Work

end Untangle
