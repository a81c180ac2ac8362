/-
  Untangle.Abstract.Facts

  What an analysis found out: for each instruction its fact, and how deep the stack is
  in front of it. Facts belong to the stream of instructions that they were found for.
-/
import Untangle.Abstract.Step
import Untangle.Graph.Basic

namespace Untangle

/-- What was found about one instruction. -/
structure Fact where
  uid : Int
  value : Option AbstractValue
  /-- The depth of the stack in front of the instruction, if it is known. -/
  depth : Option Nat

/-- What was found about a graph. -/
structure Facts where
  entries : List Fact := []

namespace Facts

/-- What was found about the instruction with a uid. -/
def find? (f : Facts) (uid : Int) : Option Fact :=
  f.entries.find? fun e => e.uid == uid

/-- The integer that an instruction is known to produce or consume. -/
def knownInt? (f : Facts) (uid : Int) : Option Int :=
  ((f.find? uid).bind (·.value)).bind AbstractValue.integer?

/-- The depth of the stack in front of an instruction, if it is known. -/
def depthBefore? (f : Facts) (uid : Int) : Option Nat :=
  (f.find? uid).bind (·.depth)

/-- How many instructions have a known constant. -/
def knownCount (f : Facts) : Nat :=
  f.entries.countP fun e => (e.value.bind AbstractValue.constant?).isSome

end Facts

/-- A block with the stack that it is entered with. -/
abbrev Arrival := Block × AbstractStack

namespace Arrival

/-- What is found by running instructions from a stack. -/
def factsOf (m : Machine) : List Instruction → AbstractStack → List Fact
  | [], _ => []
  | ins :: rest, s =>
    let (next, value) := AbstractStack.step m ins s
    ⟨ins.uid, value, s.depth?⟩ :: factsOf m rest next

/-- What is found by running blocks from their entry stacks. -/
def facts (m : Machine) (arrivals : List Arrival) : Facts :=
  ⟨arrivals.flatMap fun (b, s) => factsOf m b.code s⟩

/-- What is to be told about running blocks from their entry stacks. -/
def reports (m : Machine) (arrivals : List Arrival) : List Report :=
  arrivals.flatMap fun (b, s) => Report.ofCode m b.code s

end Arrival

/-- The stack at the start of a handler: the thrown object for those that take one. -/
def RegionKind.entryStack : RegionKind → AbstractStack
  | .catch | .filter => ⟨[.unknown], true⟩
  | .finally | .fault => .empty

/-- The stacks where control comes into the method, by label. Of two for one label the
    later one counts. -/
def Graph.rootStacks (g : Graph) : List (Int × AbstractStack) :=
  let handlers := g.spans.filterMap fun s =>
    s.handlerBlocks.head?.map fun label => (label, s.region.kind.entryStack)
  handlers.reverse ++ (g.entry?.map fun b => (b.label, AbstractStack.empty)).toList

end Untangle
