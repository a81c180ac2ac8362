/-
  Untangle.Stage.Reconcile

  Regions and the exits from them are kept in step with the instructions that are left.
  Boundaries move to the first and last instruction of the blocks that a region still
  covers, exits past emptied blocks. What cannot be kept is flagged and never guessed.
-/
import Untangle.Stage.Work

namespace Untangle

namespace Reconcile

/-- The boundaries of a region as its blocks give them; nothing for an empty range. -/
def boundsOf (g : Graph) (s : Span) : Option (Int × Int) × Option (Int × Int) :=
  (g.spanBounds? s.tryBlocks, g.spanBounds? s.handlerBlocks)

/-- The defect of an empty range. -/
def emptyRange (index : Nat) (range : String) : Issue :=
  Region.issue .emptyRegion index (range ++ " range is empty")

/-- The empty ranges of a region. -/
def regionIssues (g : Graph) (index : Nat) (s : Span) : List Issue :=
  let (tries, handlers) := boundsOf g s
  (if tries.isNone then [emptyRange index "try"] else [])
    ++ if handlers.isNone then [emptyRange index "handler"] else []

/-- A region with the given boundaries. -/
def withBounds (r : Region) (tries handlers : Int × Int) : Region :=
  { r with
    tryStart := .int tries.1, tryEnd := .int tries.2
    handlerStart := .int handlers.1, handlerEnd := .int handlers.2 }

/-- A span with the boundaries of its region moved, when they have to move. -/
def moved? (g : Graph) (s : Span) : Option Span :=
  match boundsOf g s with
  | (some tries, some handlers) =>
    let r := withBounds s.region tries handlers
    if Value.tuple r.boundaries == .tuple s.region.boundaries then none
    else some { s with region := r }
  | _ => none

/-- The graph with the boundaries of all regions moved. -/
def regionsMoved (g : Graph) : Graph :=
  { g with spans := g.spans.map fun s => (moved? g s).getD s }

/-- What becomes of an exit. -/
inductive ExitFate where
  /-- The instruction is no exit from a region. -/
  | none
  /-- Its target is gone. -/
  | lost
  /-- Its target is the live instruction; it is a new one, or lies too far. -/
  | kept (target : Int) (isNew tooFar : Bool)

/-- What becomes of an instruction as an exit from a region. -/
def exitFate (g : Graph) (ins : Instruction) : ExitFate :=
  match g.exits.find? fun e => e.uid == ins.uid with
  | Option.none => .none
  | some record =>
    let operand := ins.operand.toValue
    match operand.wholeNumber?.bind g.liveTarget? with
    | Option.none => .lost
    | some target =>
      let isNew := operand.wholeNumber? != some target
      let handlerEnd := (g.spans[record.region]?).bind fun s =>
        Method.placeOf? g.code s.region.handlerEnd
      let tooFar :=
        match Method.place? g.code target, handlerEnd with
        | some place, some last => record.bounded && last + 1 < place
        | _, _ => false
      .kept target isNew tooFar

/-- An exit with its target brought up to date. -/
def exitMoved (g : Graph) (ins : Instruction) : Instruction :=
  match exitFate g ins with
  | .kept target true _ => { ins with operand := .value (.int target) }
  | _ => ins

/-- The defects of an exit. -/
def exitIssues (g : Graph) (ins : Instruction) : List Issue :=
  match exitFate g ins, g.exits.find? fun e => e.uid == ins.uid with
  | .lost, _ => [IssueKind.danglingBranch.issue "exit target no longer exists" (.int ins.uid)]
  | .kept _ _ true, some record =>
    [IssueKind.exitOutOfBounds.issue
      ("exit of region #" ++ toString record.region ++ " now lands beyond its handler end")
      (.int ins.uid)]
  | _, _ => []

/-- Whether the target of an exit has to be brought up to date. -/
def exitChanges (g : Graph) (ins : Instruction) : Bool :=
  match exitFate g ins with
  | .kept _ isNew _ => isNew
  | _ => false

/-- Whether an instruction is no exit, or one whose target can be looked up. -/
def canFollow (g : Graph) (ins : Instruction) : Bool :=
  ins.operand.toValue.isKey || !g.exits.any fun e => e.uid == ins.uid

/-- The graph with the targets of exits brought up to date, up to the first that cannot be
    looked up. -/
def exitsMoved (g : Graph) : Graph :=
  { g with blocks := Graph.changedWhile (canFollow g) (exitMoved g) g.blocks }

end Reconcile

namespace Stage

open Reconcile in
/-- Moves the boundaries of regions, and gives the number of regions changed. -/
def reconcileRegions : Work Nat := do
  let g := (← get).graph
  for (s, index) in g.spans.zipIdx do
    (regionIssues g index s).forM Work.flag
    if let some new := moved? g s then
      Work.log "CFEX.pass.eh" Level.debug
        ("Region #" ++ toString index ++ " boundaries "
          ++ (Value.tuple s.region.boundaries).quoted ++ " -> "
          ++ (Value.tuple new.region.boundaries).quoted)
  Work.setGraph (regionsMoved g)
  return g.spans.countP fun s => (moved? g s).isSome

open Reconcile in
/-- Brings the targets of exits up to date, and gives the number of exits changed. -/
def reconcileExits : Work Nat := do
  let g := (← get).graph
  ((g.code.takeWhile (canFollow g)).flatMap (exitIssues g)).forM Work.flag
  Work.setGraph (exitsMoved g)
  if !g.code.all (canFollow g) then throw (.misuse .notAKey)
  return g.code.countP (exitChanges g)

/-- Brings regions and exits up to date, and gives the number of changes. -/
def reconcile : Work Nat := do
  let regions ← reconcileRegions
  let exits ← reconcileExits
  return regions + exits

end Stage

end Untangle
