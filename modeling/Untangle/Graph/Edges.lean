/-
  Untangle.Graph.Edges

  The edges of a block graph. They follow from the last instruction of each block: its
  targets in order, then the next block where control can fall through.
-/
import Untangle.Graph.Basic

namespace Untangle

/-- The items without those that came before. -/
def distinct {α : Type} [BEq α] (items : List α) : List α :=
  items.foldl (fun seen a => if seen.contains a then seen else seen ++ [a]) []

namespace Graph

/-- The label of the block that a branch to a uid enters or lands in. -/
def landing? (g : Graph) (uid : Int) : Option Int :=
  if g.hasBlock uid then some uid else g.owner? uid

/-- The labels that a block can pass control to, targets first. -/
def successors (g : Graph) (b : Block) : List Int :=
  let branches :=
    match b.last? with
    | some last => last.targetUids.filterMap g.landing?
    | none => []
  let falls :=
    match b.last? with
    | some last => last.fallsThrough g.terminators
    | none => true
  distinct (branches ++ if falls then (g.nextLabel? b.label).toList else [])

/-- The graph with the given successors of each block, and predecessors to match. -/
def withEdges (g : Graph) (links : List (Int × List Int)) : Graph :=
  { g with
    blocks := g.blocks.map fun b =>
      { b with
        succs := (links.lookup b.label).getD []
        preds := (links.filter fun (_, succs) => succs.contains b.label).map (·.1) } }

/-- The blocks before the first whose targets cannot be looked up. -/
def followable (g : Graph) : List Block :=
  g.blocks.takeWhile fun b => (b.last?.all fun last => last.checkTargets.isOk)

/-- The graph with its edges computed afresh. -/
def connected (g : Graph) : Graph :=
  g.withEdges (g.followable.map fun b => (b.label, g.successors b))

/-- Refuses a graph with a block whose targets cannot be looked up. -/
def checkLasts (g : Graph) : Except Misuse Unit :=
  g.blocks.forM fun b => b.last?.forM Instruction.checkTargets

end Graph

end Untangle
