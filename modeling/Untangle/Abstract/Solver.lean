/-
  Untangle.Abstract.Solver

  The fixed-point solver. Blocks wait in a queue; visiting one runs it from its entry
  stack and joins the stack after it into the entry stacks of its successors, which
  then wait again if that taught them less than they knew. A block that has been
  visited too often is entered knowing nothing, which cannot change any more.

  An instruction that cannot be run ends the solver in the middle of a visit, and so does
  an edge to a block that is gone. The order in which the successors of a block are taken
  is an argument.
-/
import Untangle.Abstract.Facts
import Untangle.Abstract.Schedule
import Untangle.Entries

namespace Untangle

/-- How far the solver is. -/
structure Solver where
  /-- Entry stacks by label. -/
  entries : List (Int × AbstractStack)
  /-- Stacks after the last visit, by label. -/
  exits : List (Int × AbstractStack) := []
  /-- The visits made, the latest first, with the stack that each block had. -/
  history : List Arrival := []
  queue : List Int
  /-- What has ended the solver before its time, if something has. -/
  stop : Option Misuse := none

namespace Solver

/-- After this many visits a block is entered knowing nothing. -/
def visitLimit : Nat := 64

/-- How often a block has been visited. -/
def visits (s : Solver) (label : Int) : Nat :=
  s.history.countP fun (b, _) => b.label == label

/-- A label waits in the queue, once. -/
def enqueue (s : Solver) (label : Int) : Solver :=
  if s.queue.contains label then s else { s with queue := s.queue ++ [label] }

/-- Gives a successor a new entry stack and puts it in the queue. -/
def enter (s : Solver) (label : Int) (stack : AbstractStack) : Solver :=
  { s with entries := Entries.put label stack s.entries }.enqueue label

/-- Joins the stack after a block into the entry stack of a successor. -/
def flow (roots : List (Int × AbstractStack)) (out : AbstractStack) (s : Solver)
    (succ : Int) : Solver :=
  if (roots.lookup succ).isSome then s
  else
    let tired := visitLimit ≤ s.visits succ
    match s.entries.lookup succ with
    | none => s.enter succ (if tired then .unknown else out)
    | some old =>
      let merged := old.join out
      if merged.same old then s
      else if tired then
        if AbstractStack.unknown.same old then s else s.enter succ .unknown
      else s.enter succ merged

/-- Visits the block at the front of the queue. -/
def visit (m : Machine) (g : Graph) (schedule : Schedule) (roots : List (Int × AbstractStack))
    (s : Solver) : Solver :=
  match s.queue with
  | [] => s
  | label :: rest =>
    match g.block? label with
    | none => { s with queue := [], stop := some .noSuchKey }
    | some b =>
      let entry := (s.entries.lookup label).getD .unknown
      let visited := { s with queue := rest, history := (b, entry) :: s.history }
      match Report.stop? m b.code entry with
      | some fault => { visited with queue := [], stop := some fault }
      | none =>
        let out := AbstractStack.transfer m b.code entry
        if (s.exits.lookup label).any fun old => old.same out then visited
        else
          (schedule.order s.history.length b.succs).foldl (flow roots out)
            { visited with exits := Entries.put label out s.exits }

/-- At most so many visits. -/
def run (m : Machine) (g : Graph) (schedule : Schedule) (roots : List (Int × AbstractStack)) :
    Nat → Solver → Solver
  | 0, s => s
  | fuel + 1, s =>
    if s.queue.isEmpty then s else run m g schedule roots fuel (s.visit m g schedule roots)

/-- Before the first visit the roots wait. -/
def start (g : Graph) : Solver :=
  let roots := g.rootStacks
  { entries := roots, queue := g.labels.filter fun l => (roots.lookup l).isSome }

/-- The solver when nothing waits any more: each block is visited at most once more
    than the limit. -/
def solve (m : Machine) (g : Graph) (schedule : Schedule) : Solver :=
  run m g schedule g.rootStacks ((visitLimit + 1) * g.blocks.length + 1) (start g)

/-- The blocks of a graph with the entry stacks that were found. -/
def arrivals (s : Solver) (g : Graph) : List Arrival :=
  g.blocks.map fun b => (b, (s.entries.lookup b.label).getD .unknown)

end Solver

end Untangle
