/-
  Untangle.Proofs.Graph.Covered

  Which instructions the blocks of a region hold. A block starts at both ends of a range and
  none lies across them, so the blocks that start inside a range are those whose instructions
  are inside (`build_covers`).
-/
import Untangle.Proofs.Graph.Build

namespace Untangle

namespace Graph

/-- The labels are those of a run of blocks, which hold the instructions at the places from one
    place to another. -/
structure Covers (g : Graph) (code : List Instruction) (first last : Nat) (labels : List Int) :
    Prop where
  run : labels <:+: g.labels
  inside : ∀ e ∈ g.outline, ∀ ins ∈ e.2, ∀ q, Method.place? code ins.uid = some q →
    (e.1 ∈ labels ↔ first ≤ q ∧ q ≤ last)

variable {m : Method} {terminators : List Value} {ranges : List RegionRange}

/-- No block lies across the end of a range. -/
theorem cut_covers (terminators : List Value) (exits : List ExitRecord)
    (hnodup : (m.code.map (·.uid)).Nodup) {range : RegionRange} (hrange : range ∈ ranges)
    {a b : Nat} (hpart : ((a : Int), (b : Int)) ∈ range.parts) (hab : a ≤ b)
    (hb : b < m.code.length) :
    (cut m terminators ranges exits).Covers m.code a b
      (labelsWithin m.code (blockStarts m.code ranges terminators) (a, b)) := by
  have hplaces := blockStarts_places m.code ranges terminators
  rw [labelsWithin_eq hplaces]
  refine ⟨?_, ?_⟩
  · rw [cut_labels]
    exact (hplaces.infix_within a b).map _
  · rw [cut_outline]
    intro e he ins hins q hq
    obtain ⟨⟨p, run⟩, hrun, rfl⟩ := List.mem_map.mp he
    obtain ⟨i, hi⟩ := List.mem_iff_getElem?.mp hins
    obtain ⟨hp, -, hget⟩ := hplaces.run_getElem? hrun
    have hlen : i < run.length := (List.getElem?_eq_some_iff.mp hi).1
    obtain ⟨hcode, hlt, -⟩ := hget i hlen
    have hplace : q = p + i := by
      obtain ⟨hq', hlabel⟩ := (place?_eq_some hnodup).mp hq
      refine labelAt_inj hnodup hq' hlt ?_
      rw [hlabel, labelAt_eq (hcode.symm.trans hi)]
    -- A start after the first place of the block would be in front of the instruction.
    have hapart : ∀ s ∈ blockStarts m.code ranges terminators, p < s → q < s := by
      intro s hs hps
      by_contra hle
      have hat : p + (s - p) = s := by omega
      exact (hget (s - p) (by omega)).2.2 (by omega) (hat.symm ▸ hs)
    have hstart : a ∈ blockStarts m.code ranges terminators :=
      mem_blockStarts_of_range hrange hpart (by omega) (Or.inl rfl)
    have hinside : labelAt m.code p ∈ ((blockStarts m.code ranges terminators).filter
        fun (s : Nat) => (a : Int) ≤ (s : Int) && (s : Int) ≤ (b : Int)).map (labelAt m.code)
        ↔ a ≤ p ∧ p ≤ b := by
      simp only [List.mem_map, List.mem_filter, Bool.and_eq_true, decide_eq_true_eq, Int.ofNat_le]
      refine ⟨fun ⟨s, ⟨hs, hin⟩, hsame⟩ => ?_, fun hin => ⟨p, ⟨hp, hin⟩, rfl⟩⟩
      rwa [← labelAt_inj hnodup (hplaces.inside s hs) (by omega) hsame]
    show labelAt m.code p ∈ _ ↔ _
    rw [hinside]
    constructor
    · rintro ⟨hap, hpb⟩
      refine ⟨by omega, ?_⟩
      by_contra hbq
      have hend : b + 1 ∈ blockStarts m.code ranges terminators :=
        mem_blockStarts_of_range hrange hpart (by omega) (Or.inr (by omega))
      have := hapart (b + 1) hend (by omega)
      omega
    · rintro ⟨haq, hqb⟩
      refine ⟨?_, by omega⟩
      by_contra hpa
      have := hapart a hstart (by omega)
      omega

/-- The two ranges of a region of a method, and the blocks of its graph that they cover. -/
theorem build_covers {g : Graph} (h : build m terminators = .ok g)
    (hnodup : (m.code.map (·.uid)).Nodup) {index : Nat} {r : Region}
    (hr : m.regions[index]? = some r) :
    ∃ (s : Span) (a b c d : Nat), g.spans[index]? = some s ∧ s.region = r
      ∧ RangeOf m.code r a b c d ∧ g.Covers m.code a b s.tryBlocks
      ∧ g.Covers m.code c d s.handlerBlocks := by
  obtain ⟨ranges, exits, haccepts, rfl⟩ := build_eq_ok.mp h
  have hindexed : m.regions.zipIdx[index]? = some (r, index) := by
    rw [List.getElem?_zipIdx, hr]
    simp
  obtain ⟨range, hrange, hok⟩ := forall₂_getElem? haccepts.fits hindexed
  obtain ⟨a, b, c, d, rfl, hat⟩ := regionRange_eq_ok.mp hok
  have hmem := List.mem_of_getElem? hrange
  have hinside {v : Value} {p : Nat} (hp : Method.placeOf? m.code v = some p) :
      p < m.code.length := by
    obtain ⟨uid, -, hplace⟩ := wholeNumber?_of_placeOf? hp
    exact ((place?_eq_some hnodup).mp hplace).1
  have hcongr {first last : Nat} {labels : List Int}
      (hcovers : (cut m terminators ranges exits).Covers m.code first last labels) :
      (cut m terminators ranges exits).connected.Covers m.code first last labels :=
    ⟨by rw [connected_labels]; exact hcovers.run, by
      rw [connected_outline]; exact hcovers.inside⟩
  refine ⟨spanOf m.code (blockStarts m.code ranges terminators) r ⟨a, b, c, d⟩, a, b, c, d, ?_,
    rfl, hat, hcongr ?_, hcongr ?_⟩
  · show ((m.regions.zip ranges).map _)[index]? = _
    have hzip : (m.regions.zip ranges)[index]? = some (r, ⟨a, b, c, d⟩) :=
      List.getElem?_zip_eq_some.mpr ⟨hr, hrange⟩
    rw [List.getElem?_map, hzip]
    rfl
  · exact cut_covers terminators exits hnodup hmem List.mem_cons_self hat.tryOrder
      (hinside hat.tryEnd)
  · exact cut_covers terminators exits hnodup hmem (mem_parts_handler a b c d)
      hat.handlerOrder (hinside hat.handlerEnd)

/-- The blocks of the ranges of a graph that is built are blocks of the graph. -/
theorem build_ranged {g : Graph} (h : build m terminators = .ok g)
    (hnodup : (m.code.map (·.uid)).Nodup) :
    ∀ s ∈ g.spans, s.tryBlocks <:+: g.labels ∧ s.handlerBlocks <:+: g.labels := by
  intro s hs
  obtain ⟨index, hindex⟩ := List.mem_iff_getElem?.mp hs
  have hr : m.regions[index]? = some s.region := by
    rw [← build_regions h, List.getElem?_map, hindex]
    rfl
  obtain ⟨s', a, b, c, d, hs', -, -, htries, hhandlers⟩ := build_covers h hnodup hr
  rw [hindex] at hs'
  cases hs'
  exact ⟨htries.run, hhandlers.run⟩

end Graph

end Untangle
