/-
  Untangle.Graph.Merge

  Joining blocks that are no longer apart for a reason: nothing but falling through
  leads from one to the next, no branch names anything in the second, and both lie in
  the same regions.
-/
import Untangle.Graph.Edges
import Untangle.Graph.Reach

namespace Untangle.Graph

/-- Whether two labels lie in the same ranges of all regions. -/
def sameRegions (g : Graph) (a b : Int) : Bool :=
  g.spans.all fun s =>
    s.tryBlocks.contains a == s.tryBlocks.contains b
    && s.handlerBlocks.contains a == s.handlerBlocks.contains b

/-- Whether control only falls out of the end of a block. -/
def onlyFalls (g : Graph) (b : Block) : Bool :=
  b.last?.all fun last => !last.endsRun g.terminators

/-- The uids that branches name. -/
def targeted (g : Graph) : List Int :=
  g.code.flatMap Instruction.targetUids

/-- Whether a block can be joined to the one before it, into which the blocks `absorbed`
    have gone. -/
def joins (g : Graph) (targeted absorbed : List Int) (before b : Block) : Bool :=
  !b.isEntry
  && g.onlyFalls before
  && b.preds.all absorbed.contains
  && !targeted.contains b.label
  && b.code.all (fun ins => !targeted.contains ins.uid)
  && g.sameRegions before.label b.label

/-- Joins the blocks after `before` to it as long as they go with it, and so on. -/
def joinRuns (g : Graph) (targeted absorbed : List Int) (before : Block) : List Block → List Block
  | [] => [before]
  | b :: rest =>
    if g.joins targeted absorbed before b then
      joinRuns g targeted (b.label :: absorbed) { before with code := before.code ++ b.code } rest
    else before :: joinRuns g targeted [b.label] b rest

/-- The blocks after joining. -/
def joinedBlocks (g : Graph) : List Block :=
  match g.blocks with
  | [] => []
  | b :: rest => joinRuns g g.targeted [b.label] b rest

/-- The labels that joining takes away. -/
def joinedLabels (g : Graph) : List Int :=
  let kept := g.joinedBlocks.map (·.label)
  g.labels.filter fun l => !kept.contains l

/-- The graph after joining. Edges are computed afresh when any block was joined. -/
def merged (g : Graph) : Graph :=
  let gone := g.joinedLabels
  if gone.isEmpty then g
  else
    connected { g with blocks := g.joinedBlocks, spans := g.spans.map fun s => s.without gone }

/-- Removes the blocks out of reach, then joins what needs no cut any more. -/
def pruned (g : Graph) : Graph :=
  if g.unreachable.isEmpty then g else g.removeUnreachable.merged

end Untangle.Graph
