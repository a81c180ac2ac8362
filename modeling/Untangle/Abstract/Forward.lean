/-
  Untangle.Abstract.Forward

  The single pass. Blocks are run once, in stream order. A block goes on with the stack
  of the block before it only when that block is its sole predecessor; any other block
  starts knowing nothing, roots apart.
-/
import Untangle.Abstract.Facts

namespace Untangle.Forward

/-- Whether a label is all there is in a list of labels. -/
def isOnly (label : Int) (labels : List Int) : Bool :=
  !labels.isEmpty && labels.all (· == label)

/-- The stack that a block is entered with, given the block before it in the stream and
    the stack after that one. -/
def entryOf (roots : List (Int × AbstractStack)) (before : Option (Int × AbstractStack))
    (b : Block) : AbstractStack :=
  match roots.lookup b.label, before with
  | some s, _ => s
  | none, some (label, out) => if isOnly label b.preds then out else .unknown
  | none, none => .unknown

/-- The blocks with their entry stacks. -/
def arrivalsFrom (m : Machine) (roots : List (Int × AbstractStack))
    (before : Option (Int × AbstractStack)) : List Block → List Arrival
  | [] => []
  | b :: rest =>
    let s := entryOf roots before b
    (b, s) :: arrivalsFrom m roots (some (b.label, AbstractStack.transfer m b.code s)) rest

/-- The blocks of a graph with their entry stacks. -/
def arrivals (m : Machine) (g : Graph) : List Arrival :=
  arrivalsFrom m g.rootStacks none g.blocks

end Untangle.Forward
