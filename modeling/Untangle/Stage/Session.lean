/-
  Untangle.Stage.Session

  Working on a graph step by step: a workbench, and a queue of edits that are made when
  they are asked for.
-/
import Untangle.Graph.Named
import Untangle.Pipeline

namespace Untangle

/-- A workbench with a queue of edits. -/
structure Session where
  bench : Workbench
  queue : EditQueue := {}

namespace Session

/-- An action on a session. What was done before a fault stays done. -/
abbrev Act := EStateM Fault Session

/-- Does work on the bench. -/
def onBench {α : Type} (w : Work α) : Act α := fun s =>
  match w.run s.bench with
  | .ok a bench => .ok a { s with bench }
  | .error f bench => .error f { s with bench }

/-- The graph as it stands. -/
def graph : Act Graph := do
  return (← get).bench.graph

/-- Goes on with a result that does not change the session. -/
def settle {α : Type} (r : Except Misuse α) : Act α :=
  match r with
  | .ok a => pure a
  | .error m => throw (.misuse m)

instance : MonadLift (Except Misuse) Act := ⟨settle⟩

instance : MonadLift Work Act := ⟨onBench⟩

/-- Puts another graph in place. -/
def change (f : Graph → Except Misuse Graph) : Act Unit := do
  Work.setGraph (← f (← graph))

/-- Queues an edit, and gives the number of edits that wait. -/
def queueEdit (e : Edit) : Act Nat := do
  Work.logQueued e
  modify fun s => { s with queue := { s.queue with edits := s.queue.edits ++ [e] } }
  return (← get).queue.edits.length

/-- Keeps the edits that count, and gives the number of the others. -/
def coalesce : Act Nat := do
  let edits := (← get).queue.edits
  let dropped ← Work.logCoalesced edits
  modify fun s => { s with queue := { s.queue with edits := Edit.coalesced edits } }
  return dropped

/-- Makes the edits that wait, once, and gives their number. -/
def applyQueue : Act Nat := do
  let q := (← get).queue
  if q.applied then
    Work.log "CFEX.pass" Level.warning "DeferredGraphModifier.apply() called twice"
    return 0
  modify fun s => { s with queue := { q with applied := true } }
  if q.edits.all (·.uid.isKey) then
    modify fun s => { s with queue := ⟨Edit.coalesced q.edits, true⟩ }
  Work.applyEdits q.edits

/-- Forgets the edits that wait. -/
def reset : Act Unit :=
  modify fun s => { s with queue := {} }

/-- Gives out the uid of the next instruction that is made. -/
def takeUid : Act Int := do
  let g ← graph
  Work.setGraph { g with fresh := g.fresh + 1 }
  return g.fresh

/-- A fresh stage with options, run on the bench. It gives the number of changes. -/
def runStage (kind : StageKind) (options : Value) : Act Nat := do
  let stage ← Settings.configured kind options
  stage.warnUnknown
  stage.run

/-- The proven selector of the dispatch at the end of the named block. -/
def selectorOf (label : Value) : Act (Option Int) := do
  let b ← (← graph).named label
  let facts ← Work.facts
  if b.code.isEmpty then throw (.misuse .noSuchPlace)
  return b.selector? facts

end Session

end Untangle
