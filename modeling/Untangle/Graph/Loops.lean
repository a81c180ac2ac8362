/-
  Untangle.Graph.Loops

  Backward branches: those whose target block stands no later than their own.
-/
import Untangle.Graph.Basic

namespace Untangle.Graph

/-- A branch back to its own block or one before it. -/
structure BackEdge where
  branch : Int
  source : Int
  target : Int
  deriving Repr, DecidableEq

/-- The labels to which an edge leads back from the block at a place, in rising order. -/
def labelsBehind (g : Graph) (b : Block) (place : Nat) : List Int :=
  (b.succs.mergeSort (· ≤ ·)).filter fun t => (g.labels.idxOf? t).any (· ≤ place)

/-- The backward branches of the block at a place. -/
def backEdgesOf (g : Graph) (b : Block) (place : Nat) : List BackEdge :=
  match b.last? with
  | none => []
  | some last =>
    if !last.isBranch then []
    else
      ((g.labelsBehind b place).filter last.targetUids.contains).map fun t =>
        ⟨last.uid, b.label, t⟩

/-- The backward branches of a graph, in stream order and by rising target. -/
def backEdges (g : Graph) : List BackEdge :=
  g.blocks.zipIdx.flatMap fun (b, place) => g.backEdgesOf b place

/-- Refuses a graph in which an edge leads back from a branch whose targets cannot be
    listed. -/
def checkLoops (g : Graph) : Except Misuse Unit :=
  g.blocks.zipIdx.forM fun (b, place) => do
    if let some last := b.last? then
      if last.isBranch && !(g.labelsBehind b place).isEmpty then
        let _ ← last.targets

end Untangle.Graph
