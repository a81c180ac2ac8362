/-
  Untangle.Graph.Relink

  From a graph back to a method. Branches are pointed at the first instruction that
  still stands where they lead, and the blocks are written out in order.
-/
import Untangle.Graph.Basic

namespace Untangle.Graph

/-- The instruction that control reaches when branching to a uid: past emptied blocks
    for a label, the instruction itself otherwise. -/
def liveTarget? (g : Graph) (uid : Int) : Option Int :=
  if g.hasBlock uid then g.resolveTarget? uid
  else if (g.owner? uid).isSome then some uid
  else none

/-- The first and last instruction of the blocks with the given labels that are left. -/
def spanBounds? (g : Graph) (labels : List Int) : Option (Int × Int) :=
  let left := (labels.filterMap g.block?).flatMap (·.code)
  match left.head?, left.getLast? with
  | some first, some last => some (first.uid, last.uid)
  | _, _ => none

/-- A target pointed at the instruction that control reaches through it. -/
def relinkTarget (g : Graph) (v : Value) : Value :=
  match v.wholeNumber?.bind g.liveTarget? with
  | some live => if v.wholeNumber? == some live then v else .int live
  | none => v

/-- An instruction with its targets pointed at live instructions. -/
def relinkInstruction (g : Graph) (ins : Instruction) : Instruction :=
  ins.retarget g.relinkTarget

/-- Whether two operands differ. -/
def operandChanged (before after : Operand) : Bool :=
  match before, after with
  | .operation a, .operation b => a != b
  | .value a, .value b => !a.equal b
  | _, _ => true

/-- The graph with every branch pointed at a live instruction, up to the first whose
    targets cannot be looked up. -/
def relinked (g : Graph) : Graph :=
  { g with blocks := changedWhile (·.checkTargets.isOk) g.relinkInstruction g.blocks }

/-- How many instructions relinking changes. -/
def relinkCount (g : Graph) : Nat :=
  g.code.countP fun ins => operandChanged ins.operand (g.relinkInstruction ins).operand

/-- The method that a graph stands for, as its branches are. -/
def toMethod (g : Graph) : Method :=
  { code := g.code, regions := g.spans.map (·.region), locals := g.locals, name := g.name }

end Untangle.Graph
