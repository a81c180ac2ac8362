/-
  Untangle.Graph.Reach

  Reachability over the edges of a block graph, from the entry and the handlers, and
  removal of the blocks that are out of reach.
-/
import Untangle.Graph.Basic

namespace Untangle.Graph

/-- Where control can come into the method: the entry, and the starts of the handlers. -/
def roots (g : Graph) : List Int :=
  (g.entry?.map (·.label)).toList ++ g.handlerRoots

/-- The blocks whose label is not among those seen. -/
def unseen (g : Graph) (seen : List Int) : List Block :=
  g.blocks.filter fun b => !seen.contains b.label

/-- The number of edges out of the blocks whose label is not among those seen. -/
def unseenEdges (g : Graph) (seen : List Int) : Nat :=
  ((g.unseen seen).flatMap (·.succs)).length

/-- Seeing the label of a block takes away its edges. -/
theorem unseenEdges_cons (g : Graph) (seen : List Int) (label : Int) (b : Block)
    (hb : g.block? label = some b) (hs : seen.contains label = false) :
    g.unseenEdges (label :: seen) + b.succs.length ≤ g.unseenEdges seen := by
  have hmem : b ∈ g.blocks := List.mem_of_find?_eq_some hb
  have hlab : b.label = label := by
    have := List.find?_some hb
    simpa using this
  have hsub : g.unseen (label :: seen)
      = (g.unseen seen).filter fun c => !(c.label == label) := by
    simp only [unseen, List.filter_filter]
    congr 1
    funext c
    simp only [List.contains_cons, Bool.not_or]
  have hin : b ∈ g.unseen seen := by
    have hs' : label ∉ seen := by simpa using hs
    simp [unseen, List.mem_filter, hmem, hlab, hs']
  unfold unseenEdges
  rw [hsub]
  generalize g.unseen seen = blocks at hin
  have hless (cs : List Block) : ((cs.filter fun c => !(c.label == label)).flatMap
      (·.succs)).length ≤ (cs.flatMap (·.succs)).length := by
    induction cs with
    | nil => exact Nat.le_refl _
    | cons c cs ih =>
      rw [List.filter_cons]
      split <;> simp only [List.flatMap_cons, List.length_append] <;> omega
  induction blocks with
  | nil => cases hin
  | cons c rest ih =>
    rcases List.mem_cons.mp hin with rfl | hin
    · have := hless rest
      rw [List.filter_cons_of_neg (by simp [hlab]), List.flatMap_cons, List.length_append]
      omega
    · have := ih hin
      rw [List.filter_cons]
      split <;> simp only [List.flatMap_cons, List.length_append] <;> omega

/-- The labels that can be reached from those waiting, besides those already seen. -/
def explore (g : Graph) (seen waiting : List Int) : List Int :=
  match waiting with
  | [] => seen
  | label :: rest =>
    if _hs : seen.contains label then explore g seen rest
    else
      match _hb : g.block? label with
      | none => explore g seen rest
      | some b => explore g (label :: seen) (rest ++ b.succs.filter fun l => !seen.contains l)
  termination_by waiting.length + g.unseenEdges seen
  decreasing_by
    · exact Nat.add_lt_add_right (Nat.lt_succ_self _) _
    · exact Nat.add_lt_add_right (Nat.lt_succ_self _) _
    · have hedges := unseenEdges_cons g seen label b _hb (by simpa using _hs)
      have hnew : (b.succs.filter fun l => !seen.contains l).length ≤ b.succs.length :=
        List.length_filter_le _ _
      rw [List.length_append, List.length_cons]
      omega

/-- The labels of the blocks that control can reach. -/
def reachable (g : Graph) : List Int :=
  g.explore [] (g.roots.filter g.hasBlock)

/-- Refuses a graph in which an edge leads from a reachable block to a block that is
    gone. -/
def checkEdges (g : Graph) : Except Misuse Unit :=
  let live := g.reachable
  if g.blocks.all fun b => !live.contains b.label || b.succs.all g.hasBlock then .ok ()
  else .error .noSuchKey

/-- The blocks that control cannot reach. -/
def unreachable (g : Graph) : List Block :=
  let live := g.reachable
  g.blocks.filter fun b => !live.contains b.label

/-- The graph without some of its blocks, their instructions, and all mention of them. -/
def without (g : Graph) (dead : List Block) : Graph :=
  let gone := dead.map (·.label)
  let goneUids := (dead.flatMap (·.code)).map (·.uid)
  { g with
    blocks := (g.blocks.filter fun b => !gone.contains b.label).map fun b =>
      { b with
        preds := b.preds.filter fun l => !gone.contains l
        succs := b.succs.filter fun l => !gone.contains l }
    spans := g.spans.map fun s => s.without gone
    exits := g.exits.filter fun e => !goneUids.contains e.uid }

/-- The graph without the blocks that control cannot reach. -/
def removeUnreachable (g : Graph) : Graph :=
  g.without g.unreachable

end Untangle.Graph
