/-
  Untangle.Proofs.Validate

  What it means that the checks of a method find nothing (`Method.validate_eq_nil`).
-/
import Untangle.Proofs.Graph.Build
import Untangle.Proofs.Graph.Relinked
import Untangle.Validate

namespace Untangle

/-- A method without structural defects. -/
structure Method.Valid (m : Method) : Prop where
  nonempty : m.code ≠ []
  opcodes : ∀ ins ∈ m.code, ins.opcode.isSome
  operands : ∀ ins ∈ m.code, ins.isBranch = true → ins.operand.isNone = false
  /-- Every target names an instruction of the method. -/
  targets : ∀ ins ∈ m.code, ∃ ts, ins.targets = .ok ts
    ∧ ∀ t ∈ ts, (placeOf? m.code t).isSome
  /-- Every boundary names an instruction of the method, a start none behind its end. -/
  regions : ∀ r ∈ m.regions, ∃ a b c d, Graph.RangeOf m.code r a b c d

theorem asKey_of_placeOf? {code : List Instruction} {v : Value}
    (h : (Method.placeOf? code v).isSome) : v.asKey = .ok v := by
  obtain ⟨ins, -, huid⟩ := Method.exists_of_placeOf? h
  exact Graph.asKey_eq_ok.mpr ⟨Graph.isKey_of_wholeNumber? huid, rfl⟩

theorem Instruction.aims_eq {ins : Instruction} {ts : List Value} (h : ins.targets = .ok ts) :
    ins.aims = ts := by
  rw [aims, h]
  rfl

/-! ## Instructions -/

/-- Targets are fit to be looked up, if they can be listed and each of them can. -/
theorem Instruction.checkTargets_eq_ok {ins : Instruction} :
    ins.checkTargets = .ok () ↔ ∃ ts, ins.targets = .ok ts ∧ ∀ t ∈ ts, t.isKey = true := by
  constructor
  · intro h
    obtain ⟨ts, hts, h⟩ := bind_eq_ok.mp h
    obtain ⟨keys, hkeys, -⟩ := bind_eq_ok.mp h
    refine ⟨ts, hts, fun t ht => ?_⟩
    obtain ⟨index, hindex⟩ := List.mem_iff_getElem?.mp ht
    obtain ⟨key, -, hkey⟩ := forall₂_getElem? (mapM_eq_ok.mp hkeys) hindex
    exact (Graph.asKey_eq_ok.mp hkey).1
  · rintro ⟨ts, hts, hkeys⟩
    refine bind_eq_ok.mpr ⟨ts, hts, bind_eq_ok.mpr ⟨ts, mapM_eq_ok.mpr ?_, rfl⟩⟩
    exact List.forall₂_same.mpr fun t ht => Graph.asKey_eq_ok.mpr ⟨hkeys t ht, rfl⟩

/-- Targets that can be looked up can be listed. -/
theorem Instruction.targets_of_check {ins : Instruction} (h : ins.checkTargets = .ok ()) :
    ins.targets = .ok ins.aims := by
  obtain ⟨ts, hts, -⟩ := checkTargets_eq_ok.mp h
  rw [aims_eq hts, hts]

/-- Targets can be looked up in a new form, if each can. -/
theorem Instruction.checkTargets_retarget {ins : Instruction} {rename : Value → Value}
    (hrename : ∀ t : Value, t.isKey = true → (rename t).isKey = true)
    (h : ins.checkTargets = .ok ()) : (ins.retarget rename).checkTargets = .ok () := by
  obtain ⟨ts, hts, hkeys⟩ := checkTargets_eq_ok.mp h
  unfold retarget
  cases hbranch : ins.isBranch with
  | false => exact h
  | true =>
    rw [Bool.not_true, if_neg (by decide)]
    by_cases hswitch : (ins.opcode == some .switch) = true
    · rw [if_pos hswitch, hts]
      refine checkTargets_eq_ok.mpr ⟨ts.map rename, ?_, ?_⟩
      · unfold targets
        change (if (!ins.isBranch) = true then _ else _) = _
        rw [hbranch, Bool.not_true, if_neg (by decide), if_pos hswitch]
        cases ts <;> rfl
      · exact List.forall_mem_map.mpr fun t ht => hrename t (hkeys t ht)
    · rw [if_neg hswitch]
      by_cases hnone : ins.operand.isNone = true
      · rw [if_pos hnone]
        exact h
      · rw [if_neg hnone]
        have hkey : ins.operand.toValue.isKey = true := by
          unfold targets at hts
          rw [hbranch, Bool.not_true, if_neg (by decide), if_neg hswitch, if_neg hnone] at hts
          cases hts
          exact hkeys _ List.mem_cons_self
        refine checkTargets_eq_ok.mpr ?_
        unfold targets
        change ∃ ts, (if (!ins.isBranch) = true then _ else _) = _ ∧ _
        rw [hbranch, Bool.not_true, if_neg (by decide), if_neg hswitch]
        split
        · exact ⟨[], rfl, nofun⟩
        · exact ⟨_, rfl, List.forall_mem_singleton.mpr (hrename _ hkey)⟩

theorem Graph.relinkTarget_isKey (g : Graph) (t : Value) (h : t.isKey = true) :
    (g.relinkTarget t).isKey = true := by
  unfold relinkTarget
  split
  · split
    · exact h
    · rfl
  · exact h

theorem Instruction.checkTargets_of_places {code : List Instruction} {ins : Instruction}
    {ts : List Value} (hts : ins.targets = .ok ts)
    (h : ∀ t ∈ ts, (Method.placeOf? code t).isSome) : ins.checkTargets = .ok () :=
  checkTargets_eq_ok.mpr ⟨ts, hts, fun t ht =>
    (Graph.asKey_eq_ok.mp (asKey_of_placeOf? (h t ht))).1⟩

/-- When an instruction whose targets can be listed has no defects. -/
theorem Instruction.issues_eq_nil {code : List Instruction} {ins : Instruction}
    {ts : List Value} (hts : ins.targets = .ok ts) :
    ins.issues code = [] ↔ ins.opcode.isSome
      ∧ (ins.isBranch = true → ins.operand.isNone = false)
      ∧ ∀ t ∈ ts, (Method.placeOf? code t).isSome := by
  unfold issues
  cases hop : ins.opcode with
  | none => simp
  | some op =>
    rw [Option.isNone_some, if_neg (by decide)]
    cases hbranch : ins.isBranch with
    | false =>
      have hnone : ts = [] := by
        unfold targets at hts
        rw [hbranch] at hts
        exact (Except.ok.inj hts).symm
      simp [hnone]
    | true =>
      cases hnone : ins.operand.isNone with
      | true => simp
      | false =>
        rw [hts]
        simp [List.filter_eq_nil_iff, Option.isSome_iff_ne_none]

/-! ## Regions -/

/-- When a region has no defects. -/
theorem Region.issues_eq_nil {code : List Instruction} {index : Nat} {r : Region} :
    r.issues code index = [] ↔ ∃ a b c d, Graph.RangeOf code r a b c d := by
  unfold issues
  constructor
  · intro h
    dsimp only at h
    split at h
    · cases h
    · rename_i hmissing
      have hall : ∀ p ∈ r.namedBoundaries, (Method.placeOf? code p.2).isSome := by
        intro p hp
        rw [Bool.not_eq_true', Bool.not_eq_false, List.isEmpty_iff] at hmissing
        have hnone := List.filter_eq_nil_iff.mp hmissing p hp
        simpa [Option.isSome_iff_ne_none] using hnone
      obtain ⟨a, ha⟩ := Option.isSome_iff_exists.mp (hall ("try_start", r.tryStart)
        (by simp [namedBoundaries]))
      obtain ⟨b, hb⟩ := Option.isSome_iff_exists.mp (hall ("try_end", r.tryEnd)
        (by simp [namedBoundaries]))
      obtain ⟨c, hc⟩ := Option.isSome_iff_exists.mp (hall ("handler_start", r.handlerStart)
        (by simp [namedBoundaries]))
      obtain ⟨d, hd⟩ := Option.isSome_iff_exists.mp (hall ("handler_end", r.handlerEnd)
        (by simp [namedBoundaries]))
      simp only [ha, hb, hc, hd, decide_eq_true_eq, List.append_eq_nil_iff, ite_eq_right_iff,
        List.cons_ne_self, imp_false, Nat.not_lt] at h
      exact ⟨a, b, c, d, ha, hb, hc, hd, h.1, h.2⟩
  · rintro ⟨a, b, c, d, ha, hb, hc, hd, htry, hhandler⟩
    have hnone : (r.namedBoundaries.filter fun p => (Method.placeOf? code p.2).isNone) = [] := by
      simp [namedBoundaries, ha, hb, hc, hd]
    simp [hnone, ha, hb, hc, hd, htry, hhandler]

/-! ## Kinds of defects -/

theorem Instruction.issues_kind {code : List Instruction} {ins : Instruction} :
    ∀ issue ∈ ins.issues code, issue.kind = .nullOpcode ∨ issue.kind = .danglingBranch := by
  intro issue h
  unfold issues at h
  dsimp only at h
  split at h
  · rw [List.mem_singleton.mp h]
    exact Or.inl rfl
  split at h
  · cases h
  split at h
  · rw [List.mem_singleton.mp h]
    exact Or.inr rfl
  split at h
  · obtain ⟨t, -, rfl⟩ := List.mem_map.mp h
    exact Or.inr rfl
  · cases h

theorem Region.issues_kind {code : List Instruction} {index : Nat} {r : Region} :
    ∀ issue ∈ r.issues code index, issue.kind = .danglingRegion ∨ issue.kind = .emptyRegion := by
  intro issue h
  unfold issues at h
  dsimp only at h
  split at h
  · rw [List.mem_singleton.mp h]
    exact Or.inl rfl
  · simp only [List.mem_append, List.mem_ite_nil_right, List.mem_singleton] at h
    rcases h with ⟨-, rfl⟩ | ⟨-, rfl⟩ <;> exact Or.inr rfl

namespace Method

variable {m : Method}

/-! ## Methods -/

/-- The checks of a method find no exit that lies too far. Where the boundaries of regions stand
    in order, they find no defect of a region. -/
theorem issues_kind : ∀ issue ∈ m.issues, issue.kind ≠ .exitOutOfBounds
    ∧ ((∀ r ∈ m.regions, ∃ a b c d, Graph.RangeOf m.code r a b c d) →
      issue.kind ≠ .danglingRegion ∧ issue.kind ≠ .emptyRegion) := by
  intro issue h
  unfold issues at h
  rcases List.mem_append.mp h with h | h
  · have hkind : issue.kind = .emptyBody ∨ issue.kind = .nullOpcode
        ∨ issue.kind = .danglingBranch := by
      rw [List.mem_append, List.mem_ite_nil_right, List.mem_singleton] at h
      rcases h with ⟨-, rfl⟩ | h
      · exact Or.inl rfl
      · obtain ⟨ins, -, h⟩ := List.mem_flatMap.mp h
        exact Or.inr (Instruction.issues_kind issue h)
    rcases hkind with hkind | hkind | hkind <;> rw [hkind] <;> exact ⟨nofun, fun _ => ⟨nofun, nofun⟩⟩
  · obtain ⟨⟨r, index⟩, hr, h⟩ := List.mem_flatMap.mp h
    refine ⟨?_, fun hranges => ?_⟩
    · rcases Region.issues_kind issue h with hkind | hkind <;> rw [hkind] <;> decide
    · dsimp only at h
      rw [Region.issues_eq_nil.mpr (hranges r (List.fst_mem_of_mem_zipIdx hr))] at h
      cases h

/-- The checks of a method find nothing exactly when it has no defects. -/
theorem validate_eq_nil : m.validate = .ok [] ↔ m.Valid := by
  have hregions : (m.regions.zipIdx.flatMap fun p => p.1.issues m.code p.2) = []
      ↔ ∀ r ∈ m.regions, ∃ a b c d, Graph.RangeOf m.code r a b c d := by
    rw [List.flatMap_eq_nil_iff]
    constructor
    · intro h r hr
      obtain ⟨i, hi⟩ := List.mem_iff_getElem?.mp hr
      refine Region.issues_eq_nil.mp (h (r, i) ?_)
      exact List.mk_mem_zipIdx_iff_getElem?.mpr hi
    · intro h p hp
      exact Region.issues_eq_nil.mpr (h p.1 (List.fst_mem_of_mem_zipIdx hp))
  constructor
  · intro h
    obtain ⟨⟨⟩, hnames, hissues⟩ := bind_eq_ok.mp h
    obtain ⟨⟨⟩, hcode, -⟩ := bind_eq_ok.mp hnames
    have hnone : m.issues = [] := Except.ok.inj hissues
    unfold issues at hnone
    obtain ⟨hfront, hranges⟩ := List.append_eq_nil_iff.mp hnone
    obtain ⟨hempty, hinstructions⟩ := List.append_eq_nil_iff.mp hfront
    have hall (ins : Instruction) (hins : ins ∈ m.code) :=
      (Instruction.issues_eq_nil
        (Instruction.targets_of_check (forM_eq_ok.mp hcode ins hins))).mp
        (List.flatMap_eq_nil_iff.mp hinstructions ins hins)
    refine ⟨?_, fun ins hins => (hall ins hins).1, fun ins hins => (hall ins hins).2.1,
      fun ins hins => ⟨_, Instruction.targets_of_check (forM_eq_ok.mp hcode ins hins),
        (hall ins hins).2.2⟩, hregions.mp hranges⟩
    intro hnil
    rw [hnil] at hempty
    cases hempty
  · intro h
    refine bind_eq_ok.mpr ⟨(), bind_eq_ok.mpr ⟨(), forM_eq_ok.mpr fun ins hins => ?_,
      forM_eq_ok.mpr fun r hr => forM_eq_ok.mpr fun v hv => ?_⟩, congrArg Except.ok ?_⟩
    · obtain ⟨ts, hts, hplaces⟩ := h.targets ins hins
      exact Instruction.checkTargets_of_places hts hplaces
    · obtain ⟨a, b, c, d, hat⟩ := h.regions r hr
      have hplace : (placeOf? m.code v).isSome := by
        simp only [Region.boundaries, List.mem_cons, List.not_mem_nil, or_false] at hv
        rcases hv with rfl | rfl | rfl | rfl
        · rw [hat.tryStart]; rfl
        · rw [hat.tryEnd]; rfl
        · rw [hat.handlerStart]; rfl
        · rw [hat.handlerEnd]; rfl
      exact bind_eq_ok.mpr ⟨v, asKey_of_placeOf? hplace, rfl⟩
    · unfold issues
      rw [hregions.mpr h.regions, List.append_nil, List.append_eq_nil_iff]
      refine ⟨?_, List.flatMap_eq_nil_iff.mpr fun ins hins => ?_⟩
      · rw [if_neg (by simpa using h.nonempty)]
      · obtain ⟨ts, hts, hplaces⟩ := h.targets ins hins
        exact (Instruction.issues_eq_nil hts).mpr ⟨h.opcodes ins hins, h.operands ins hins, hplaces⟩

end Method

end Untangle
