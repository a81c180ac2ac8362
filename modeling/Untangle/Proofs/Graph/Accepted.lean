/-
  Untangle.Proofs.Graph.Accepted

  When a method can be cut into blocks (`exists_build`): targets and boundaries name
  instructions, and what is looked up on the way can be. Of an exit the target has to be an
  integer, but only inside a region, as it does in every method that can be cut
  (`build_leave`).
-/
import Untangle.Proofs.Graph.Build

namespace Untangle

/-! ## The innermost region -/

namespace RegionRange

theorem mem_of_smallest? {found : List (Int × Nat)} {best : Int × Nat}
    (h : smallest? found = some best) : best ∈ found := by
  cases found with
  | nil => cases h
  | cons first rest =>
    cases h
    have key : ∀ c : Int × Nat,
        rest.foldl (fun best c => if c.1 < best.1 then c else best) c ∈ c :: rest := by
      intro c
      induction rest generalizing c with
      | nil => exact List.mem_cons_self
      | cons d rest ih =>
        rw [List.foldl_cons]
        rcases List.mem_cons.mp (ih (if d.1 < c.1 then d else c)) with heq | hmem
        · rw [heq]
          split <;> simp
        · exact List.mem_cons_of_mem _ (List.mem_cons_of_mem _ hmem)
    exact key first

/-- A place is in a range of a region. -/
def Around (place : Int) (r : RegionRange) : Prop :=
  ∃ part ∈ r.parts, part.1 ≤ place ∧ place ≤ part.2

theorem mem_holding {place : Int} {r : RegionRange} {index : Nat} {c : Int × Nat} :
    c ∈ r.holding place index ↔ ∃ part ∈ r.parts, (part.1 ≤ place ∧ place ≤ part.2)
      ∧ c = (part.2 - part.1, index) := by
  unfold holding
  simp only [List.mem_map, List.mem_filter, Bool.and_eq_true, decide_eq_true_eq]
  constructor
  · rintro ⟨part, ⟨hpart, hin⟩, rfl⟩
    exact ⟨part, hpart, hin, rfl⟩
  · rintro ⟨part, hpart, hin, rfl⟩
    exact ⟨part, ⟨hpart, hin⟩, rfl⟩

/-- The innermost region around a place is one of the regions, and it is around the place. -/
theorem around_of_innermost? {place : Int} {ranges : List RegionRange} {index : Nat}
    (h : innermost? place ranges = some index) :
    ∃ r, ranges[index]? = some r ∧ r.Around place := by
  obtain ⟨⟨size, index'⟩, hbest, rfl⟩ := Option.map_eq_some_iff.mp h
  obtain ⟨⟨r, i⟩, hr, hholding⟩ := List.mem_flatMap.mp (mem_of_smallest? hbest)
  obtain ⟨part, hpart, hin, heq⟩ := mem_holding.mp hholding
  obtain ⟨-, rfl⟩ := Prod.mk.inj heq
  exact ⟨r, List.mk_mem_zipIdx_iff_getElem?.mp hr, part, hpart, hin⟩

/-- Around a place in a range there is an innermost region. -/
theorem exists_innermost? {place : Int} {ranges : List RegionRange} {r : RegionRange}
    (hr : r ∈ ranges) (h : r.Around place) : ∃ index, innermost? place ranges = some index := by
  obtain ⟨i, hi⟩ := List.mem_iff_getElem?.mp hr
  obtain ⟨part, hpart, hin⟩ := h
  have hmem : (part.2 - part.1, i) ∈ ranges.zipIdx.flatMap fun p => p.1.holding place p.2 :=
    List.mem_flatMap.mpr ⟨(r, i), List.mk_mem_zipIdx_iff_getElem?.mpr hi,
      mem_holding.mpr ⟨part, hpart, hin, rfl⟩⟩
  show ∃ index, (smallest? (ranges.zipIdx.flatMap fun p => p.1.holding place p.2)).map (·.2)
    = some index
  cases hfound : ranges.zipIdx.flatMap fun p => p.1.holding place p.2 with
  | nil =>
    rw [hfound] at hmem
    cases hmem
  | cons first rest => exact ⟨_, rfl⟩

end RegionRange

namespace Graph

variable {m : Method} {terminators : List Value}

/-! ## Exits -/

/-- What is recorded of an exit inside a region takes a target that is a place of the method. -/
theorem exitRecord_ok_iff {code : List Instruction} {ranges : List RegionRange}
    {ins : Instruction} {place : Nat} (hop : ins.opcode = some .leave) :
    (∃ record, exitRecord code ranges ins place = .ok record)
      ↔ ((∃ r ∈ ranges, r.Around place) →
        (ins.operand.toValue.asInt?.bind (Method.place? code)).isSome) := by
  have hbranch : (ins.opcode != some .leave) = false := by simp [hop]
  unfold exitRecord
  rw [hbranch, if_neg (by decide)]
  constructor
  · rintro ⟨record, h⟩ ⟨r, hr, haround⟩
    obtain ⟨index, hindex⟩ := RegionRange.exists_innermost? hr haround
    rw [hindex] at h
    dsimp only at h
    split at h
    · rename_i target _ htarget _
      rw [htarget]
      rfl
    · cases h
  · intro h
    cases hindex : RegionRange.innermost? place ranges with
    | none => exact ⟨none, rfl⟩
    | some index =>
      obtain ⟨r, hr, haround⟩ := RegionRange.around_of_innermost? hindex
      obtain ⟨target, htarget⟩ :=
        Option.isSome_iff_exists.mp (h ⟨r, List.mem_of_getElem? hr, haround⟩)
      dsimp only
      rw [htarget, hr]
      exact ⟨_, rfl⟩

/-- An exit to an integer leads to a place of the method, if its targets do. -/
theorem place_of_leave {code : List Instruction} {ins : Instruction}
    (htargets : ∃ ts, ins.targets = .ok ts ∧ ∀ t ∈ ts, (Method.placeOf? code t).isSome)
    (hop : ins.opcode = some .leave) (hint : ins.operand.toValue.asInt?.isSome) :
    (ins.operand.toValue.asInt?.bind (Method.place? code)).isSome := by
  obtain ⟨ts, hts, hplaces⟩ := htargets
  obtain ⟨n, hn⟩ := Option.isSome_iff_exists.mp hint
  have hbranch : ins.isBranch = true := by unfold Instruction.isBranch; rw [hop]; rfl
  have hsome : ins.operand.isNone = false := by
    refine Bool.eq_false_iff.mpr fun hnone => ?_
    rw [Operand.eq_of_isNone hnone] at hn
    cases hn
  have hmem := Instruction.mem_aims_of_operand hbranch (by rw [hop]; decide) hsome
  rw [Instruction.aims, hts] at hmem
  have hplace := hplaces _ hmem
  rw [Method.placeOf?, wholeNumber?_of_asInt? hn] at hplace
  rw [hn]
  exact hplace

/-- A place is in a range of a region of a method. -/
def Inside (m : Method) (place : Nat) : Prop :=
  ∃ r ∈ m.regions, ∃ a b c d, RangeOf m.code r a b c d
    ∧ (a ≤ place ∧ place ≤ b ∨ c ≤ place ∧ place ≤ d)

/-- The ranges of regions are around the places in them. -/
theorem around_iff_inside {ranges : List RegionRange}
    (hfits : List.Forall₂ (fun r range => regionRange m.code r.2 r.1 = .ok range)
      m.regions.zipIdx ranges) {place : Nat} :
    (∃ r ∈ ranges, r.Around place) ↔ Inside m place := by
  have hparts (a b c d : Nat) : (⟨a, b, c, d⟩ : RegionRange).Around place
      ↔ (a ≤ place ∧ place ≤ b ∨ c ≤ place ∧ place ≤ d) := by
    unfold RegionRange.Around RegionRange.parts
    simp
  constructor
  · rintro ⟨range, hrange, haround⟩
    obtain ⟨⟨r, i⟩, hr, hok⟩ := exists_of_forall₂ hfits hrange
    obtain ⟨a, b, c, d, rfl, hat⟩ := regionRange_eq_ok.mp hok
    exact ⟨r, List.fst_mem_of_mem_zipIdx hr, a, b, c, d, hat, (hparts a b c d).mp haround⟩
  · rintro ⟨r, hr, a, b, c, d, hat, hin⟩
    obtain ⟨i, hi⟩ := List.mem_iff_getElem?.mp hr
    have hindexed : m.regions.zipIdx[i]? = some (r, i) := by
      rw [List.getElem?_zipIdx, hi]
      simp
    obtain ⟨range, hrange, hok⟩ := forall₂_getElem? hfits hindexed
    obtain ⟨a', b', c', d', rfl, hat'⟩ := regionRange_eq_ok.mp hok
    obtain ⟨rfl, rfl, rfl, rfl⟩ := hat.unique hat'
    exact ⟨_, List.mem_of_getElem? hrange, (hparts a b c d).mpr hin⟩

/-! ## Methods that can be cut -/

/-- A method can be cut into blocks when targets and boundaries name instructions, what is
    looked up on the way can be, and exits inside regions have integers for targets. -/
theorem exists_build
    (htargets : ∀ ins ∈ m.code, ∃ ts, ins.targets = .ok ts
      ∧ ∀ t ∈ ts, (Method.placeOf? m.code t).isSome)
    (hregions : ∀ r ∈ m.regions, ∃ a b c d, RangeOf m.code r a b c d)
    (hkeys : ∀ t ∈ terminators, t.isKey = true)
    (hmnemonics : ∀ ins ∈ m.code, ins.opcode = some .other → ins.mnemonic.isKey = true)
    (hexits : ∀ (place : Nat) ins, m.code[place]? = some ins → ins.opcode = some .leave →
      Inside m place → ins.operand.toValue.asInt?.isSome) :
    ∃ g, build m terminators = .ok g := by
  have hrange : ∀ r ∈ m.regions.zipIdx, ∃ range, regionRange m.code r.2 r.1 = .ok range := by
    intro r hr
    obtain ⟨a, b, c, d, hat⟩ := hregions r.1 (List.fst_mem_of_mem_zipIdx hr)
    exact ⟨_, regionRange_eq_ok.mpr ⟨a, b, c, d, rfl, hat⟩⟩
  obtain ⟨ranges, hranges⟩ := exists_forall₂ hrange
  have hrecord : ∀ p ∈ m.code.zipIdx, ∃ r, exitRecord m.code ranges p.1 p.2 = .ok r := by
    rintro ⟨ins, place⟩ hp
    by_cases hop : ins.opcode = some .leave
    · refine (exitRecord_ok_iff hop).mpr fun haround => ?_
      have hplace := List.mk_mem_zipIdx_iff_getElem?.mp hp
      exact place_of_leave (htargets ins (List.mem_of_getElem? hplace)) hop
        (hexits place ins hplace hop ((around_iff_inside hranges).mp haround))
    · exact ⟨none, by unfold exitRecord; rw [if_pos (by simpa using hop)]⟩
  obtain ⟨found, hfound⟩ := exists_forall₂ hrecord
  exact ⟨_, build_eq_ok.mpr ⟨ranges, found.filterMap id, ⟨hkeys, hranges, fun ins hins =>
    checkFlow_eq_ok.mpr ⟨htargets ins hins, hmnemonics ins hins⟩,
    filterMapM_eq_ok.mpr ⟨found, hfound, rfl⟩⟩, rfl⟩⟩

/-- In a method that is cut into blocks an exit inside a region has an integer for a target. -/
theorem build_leave {g : Graph} (h : build m terminators = .ok g) {place : Nat}
    {ins : Instruction} (hins : m.code[place]? = some ins) (hop : ins.opcode = some .leave)
    (hinside : Inside m place) : ins.operand.toValue.asInt?.isSome := by
  obtain ⟨ranges, exits, haccepts, -⟩ := build_eq_ok.mp h
  obtain ⟨found, hfound, -⟩ := filterMapM_eq_ok.mp haccepts.leaves
  have hindexed : m.code.zipIdx[place]? = some (ins, place) := by
    rw [List.getElem?_zipIdx, hins]
    simp
  obtain ⟨record, -, hok⟩ := forall₂_getElem? hfound hindexed
  have hplace := (exitRecord_ok_iff hop).mp ⟨record, hok⟩
    ((around_iff_inside haccepts.fits).mpr hinside)
  exact Option.isSome_of_isSome_bind hplace

end Graph

end Untangle
