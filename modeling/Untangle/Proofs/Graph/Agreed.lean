/-
  Untangle.Proofs.Graph.Agreed

  The checks of a method and the cutting into blocks accept the same methods
  (`Method.validate_agrees`). They are written apart: the checks go through the whole method and
  collect what they find, the cutting stops at the first defect that it meets. Cutting asks more of
  exits from regions, namely an integer for a target, which a method whose branches name their
  targets by number has everywhere.
-/
import Untangle.Proofs.Graph.Accepted
import Untangle.Proofs.Graph.Refused
import Untangle.Proofs.Validate

namespace Untangle

namespace Instruction

/-- A branch names its targets by number: a dispatch has a tuple of integers for an operand, and
    another branch an integer. Truth values count as integers. -/
structure ByNumber (ins : Instruction) : Prop where
  dispatch : ins.opcode = some .switch →
    ∃ ts, ins.operand = .value (.tuple ts) ∧ ∀ t ∈ ts, t.asInt?.isSome
  single : ins.isBranch = true → ins.opcode ≠ some .switch → ins.operand.toValue.asInt?.isSome

namespace ByNumber

variable {ins : Instruction}

/-- A branch by number has an operand. -/
theorem operand (h : ins.ByNumber) (hbranch : ins.isBranch = true) :
    ins.operand.isNone = false := by
  by_cases hswitch : ins.opcode = some .switch
  · obtain ⟨ts, hts, -⟩ := h.dispatch hswitch
    rw [hts]
    rfl
  · have hint := h.single hbranch hswitch
    refine Bool.eq_false_iff.mpr fun hnone => ?_
    rw [Operand.eq_of_isNone hnone] at hint
    cases hint

/-- The targets of a branch by number are integers. -/
theorem targets (h : ins.ByNumber) : ∃ ts, ins.targets = .ok ts ∧ ∀ t ∈ ts, t.asInt?.isSome := by
  unfold Instruction.targets
  cases hbranch : ins.isBranch with
  | false => exact ⟨[], rfl, nofun⟩
  | true =>
    rw [Bool.not_true, if_neg (by decide)]
    by_cases hswitch : ins.opcode = some .switch
    · obtain ⟨ts, hoperand, hints⟩ := h.dispatch hswitch
      refine ⟨ts, ?_, hints⟩
      rw [hswitch, hoperand]
      cases ts <;> rfl
    · rw [if_neg (by simpa using hswitch), h.operand hbranch, if_neg (by decide)]
      exact ⟨_, rfl, List.forall_mem_singleton.mpr (h.single hbranch hswitch)⟩

/-- The targets of a branch by number can be looked up. -/
theorem checkTargets (h : ins.ByNumber) : ins.checkTargets = .ok () := by
  obtain ⟨ts, hts, hints⟩ := h.targets
  refine checkTargets_eq_ok.mpr ⟨ts, hts, fun t ht => ?_⟩
  obtain ⟨n, hn⟩ := Option.isSome_iff_exists.mp (hints t ht)
  exact Graph.isKey_of_wholeNumber? (Graph.wholeNumber?_of_asInt? hn)

end ByNumber

end Instruction

namespace Method

variable {m : Method} {terminators : List Value}

/-- In a method whose names can be looked up, the checks come to an end. -/
theorem Keyed.validate (h : m.Keyed) : m.validate = .ok m.issues := by
  have hnames : m.checkNames = .ok () :=
    bind_eq_ok.mpr ⟨(), forM_eq_ok.mpr h.targets, forM_eq_ok.mpr fun r hr =>
      forM_eq_ok.mpr fun v hv =>
        bind_eq_ok.mpr ⟨v, Graph.asKey_eq_ok.mpr ⟨h.boundaries r hr v hv, rfl⟩, rfl⟩⟩
  exact bind_eq_ok.mpr ⟨(), hnames, rfl⟩

/-- A method without defects is cut into blocks. -/
theorem Valid.exists_build (h : m.Valid) (hm : m.Keyed) (hnumbers : ∀ ins ∈ m.code, ins.ByNumber)
    (hterminators : ∀ t ∈ terminators, t.isKey = true) :
    ∃ g, Graph.build m terminators = .ok g := by
  refine Graph.exists_build h.targets h.regions hterminators hm.mnemonics
    fun place ins hins hop _ => ?_
  have hbranch : ins.isBranch = true := by unfold Instruction.isBranch; rw [hop]; rfl
  exact (hnumbers ins (List.mem_of_getElem? hins)).single hbranch (by rw [hop]; decide)

end Method

end Untangle
