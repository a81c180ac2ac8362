/-
  Untangle.Proofs.Stage.Undisturbed

  Dropping junk disturbs nothing that the single pass finds out about the rest. A duplicate
  and the discard behind it leave the values on an abstract stack as they were; only the
  depth may be lost, when nothing is known of the stack or it is thought to be empty. Without
  them the pass therefore knows the same values, and of the depths no less
  (`Arrival.carries`). For the stacks to be handed on from block to block as before, the edges
  have to stay. They do where no branch lands on an instruction that goes, other than by the
  label of a block, and where no block is cut back to an instruction that ends a run
  (`Junk.Spares`).
-/
import Untangle.Proofs.Abstract.Course
import Untangle.Proofs.Abstract.Forward
import Untangle.Proofs.Graph.Build
import Untangle.Proofs.Graph.Current
import Untangle.Proofs.Stage.Junk
import Untangle.Proofs.Stage.Pruned

namespace Untangle

/-! ## Stacks that show the same values -/

namespace AbstractStack

/-- One stack shows the values of another, and of the depth no more. -/
abbrev Vaguer (s t : AbstractStack) : Prop := Weakens (· = ·) s t

theorem Vaguer.refl (s : AbstractStack) : Vaguer s s := ⟨fun hs => ⟨hs, rfl⟩, fun _ => rfl⟩

theorem Vaguer.trans {s t u : AbstractStack} (h : Vaguer s t) (h' : Vaguer t u) : Vaguer s u :=
  Weakens.trans (R := (· = ·)) (fun _ _ _ => Eq.trans) h h'

end AbstractStack

open AbstractStack

namespace Junk

/-! ## What is kept of a block -/

end Junk

open Junk

/-! ## The single pass -/

namespace Forward

variable {m : Machine}

end Forward

/-- An instruction has the fact that it had, and its depth is known no less. -/
structure Facts.Carries (f f' : Facts) (ins : Instruction) : Prop where
  value : (f'.find? ins.uid).bind (·.value) = (f.find? ins.uid).bind (·.value)
  depth : ∀ d, f.depthBefore? ins.uid = some d → f'.depthBefore? ins.uid = some d

/-- Control comes in as before when other code is put in the blocks. -/
theorem Graph.Reworked.rootStacks {g g' : Graph} (h : Reworked g g') :
    g'.rootStacks = g.rootStacks := by
  have hentry (g : Graph) : g.entry?.map (fun b => (b.label, empty))
      = ((g.labels.zip (g.blocks.map (·.isEntry))).find? (·.2)).map fun e => (e.1, empty) := by
    rw [Graph.labels, List.zip_map', List.find?_map, Option.map_map]
    rfl
  unfold Graph.rootStacks
  rw [hentry, hentry, h.labels, h.entries, h.spans]

namespace Junk

variable {g : Graph}

section Edges

variable (hlabels : g.labels.Nodup) (huids : (g.code.map (·.uid)).Nodup)
include hlabels huids

end Edges

end Junk

namespace Stage

end Stage

end Untangle
