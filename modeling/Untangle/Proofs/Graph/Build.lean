/-
  Untangle.Proofs.Graph.Build

  Building a graph. `build_eq_ok` says when a method is accepted and what the graph is; the
  rest is read off it: the graph is well-formed, its edges are those of its outline, and it
  shows what the method shows.
-/
import Untangle.Proofs.Graph.Cut
import Untangle.Proofs.Graph.Merge

namespace Untangle

namespace Graph

/-- A method can be cut, with its regions at the given ranges and with the given exits. -/
structure Accepts (m : Method) (terminators : List Value) (ranges : List RegionRange)
    (exits : List ExitRecord) : Prop where
  keys : ∀ t ∈ terminators, t.isKey = true
  fits : List.Forall₂ (fun r range => regionRange m.code r.2 r.1 = .ok range) m.regions.zipIdx
    ranges
  flows : ∀ ins ∈ m.code, checkFlow m.code ins = .ok ()
  leaves : m.code.zipIdx.filterMapM (fun p => exitRecord m.code ranges p.1 p.2) = .ok exits

/-- The span of a region at a range. -/
def spanOf (code : List Instruction) (starts : List Nat) (region : Region)
    (range : RegionRange) : Span :=
  { region
    tryBlocks := labelsWithin code starts (range.tryStart, range.tryEnd)
    handlerBlocks := labelsWithin code starts (range.handlerStart, range.handlerEnd) }

/-- The blocks of a method, before the edges are computed. -/
def cut (m : Method) (terminators : List Value) (ranges : List RegionRange)
    (exits : List ExitRecord) : Graph :=
  let starts := blockStarts m.code ranges terminators
  { blocks := (runsFrom m.code starts).filterMap blockOf
    spans := (m.regions.zip ranges).map fun r => spanOf m.code starts r.1 r.2
    exits, terminators
    locals := m.locals
    name := m.name
    fresh := Method.freshUid m.code }

theorem asKey_eq_ok {v w : Value} : v.asKey = .ok w ↔ v.isKey = true ∧ w = v := by
  unfold Value.asKey
  split
  · rename_i h
    constructor
    · intro heq
      cases heq
      exact ⟨h, rfl⟩
    · rintro ⟨-, rfl⟩
      rfl
  · rename_i h
    exact ⟨(nomatch ·), fun ⟨hkey, _⟩ => absurd hkey h⟩

theorem lift_eq_ok {α : Type} {x : Except Misuse α} {a : α} :
    Fault.lift x = .ok a ↔ x = .ok a := by
  cases x with
  | error e => exact ⟨(nomatch ·), (nomatch ·)⟩
  | ok b => exact ⟨fun h => by cases h; rfl, fun h => by cases h; rfl⟩

/-- When a method is accepted, and the graph that is built. -/
theorem build_eq_ok {m : Method} {terminators : List Value} {g : Graph} :
    build m terminators = .ok g
      ↔ ∃ ranges exits, Accepts m terminators ranges exits
          ∧ g = (cut m terminators ranges exits).connected := by
  have hkeys : (terminators.forM fun t => do
        let _ ← Fault.lift t.asKey
        pure () : Except Fault Unit) = .ok ()
      ↔ ∀ t ∈ terminators, t.isKey = true := by
    rw [forM_eq_ok]
    refine forall₂_congr fun t _ => ?_
    rw [bind_eq_ok]
    constructor
    · rintro ⟨v, hv, -⟩
      exact (asKey_eq_ok.mp (lift_eq_ok.mp hv)).1
    · exact fun hkey => ⟨t, lift_eq_ok.mpr (asKey_eq_ok.mpr ⟨hkey, rfl⟩), rfl⟩
  unfold build
  constructor
  · intro h
    obtain ⟨⟨⟩, h1, h⟩ := bind_eq_ok.mp h
    obtain ⟨ranges, h2, h⟩ := bind_eq_ok.mp h
    obtain ⟨⟨⟩, h3, h⟩ := bind_eq_ok.mp h
    obtain ⟨exits, h4, h⟩ := bind_eq_ok.mp h
    cases h
    exact ⟨ranges, exits, ⟨hkeys.mp h1, mapM_eq_ok.mp h2, forM_eq_ok.mp h3, h4⟩, rfl⟩
  · rintro ⟨ranges, exits, ⟨h1, h2, h3, h4⟩, rfl⟩
    refine bind_eq_ok.mpr ⟨(), hkeys.mpr h1, bind_eq_ok.mpr ⟨ranges, mapM_eq_ok.mpr h2, ?_⟩⟩
    exact bind_eq_ok.mpr ⟨(), forM_eq_ok.mpr h3, bind_eq_ok.mpr ⟨exits, h4, rfl⟩⟩

/-! ## The parts of accepting a method -/

/-- A value that names an instruction is a number. -/
theorem wholeNumber?_of_placeOf? {code : List Instruction} {v : Value} {p : Nat}
    (h : Method.placeOf? code v = some p) :
    ∃ uid, v.wholeNumber? = some uid ∧ Method.place? code uid = some p :=
  Option.bind_eq_some_iff.mp h

theorem boundaryPlace_eq_ok {code : List Instruction} {index : Nat} {name : String} {v : Value}
    {p : Int} : boundaryPlace code index name v = .ok p
      ↔ ∃ q : Nat, Method.placeOf? code v = some q ∧ p = q := by
  unfold boundaryPlace
  constructor
  · intro h
    obtain ⟨w, hw, hplace⟩ := bind_eq_ok.mp h
    obtain ⟨-, rfl⟩ := asKey_eq_ok.mp (lift_eq_ok.mp hw)
    cases hp : Method.placeOf? code w with
    | none => rw [hp] at hplace; cases hplace
    | some q => rw [hp] at hplace; cases hplace; exact ⟨q, rfl, rfl⟩
  · rintro ⟨q, hq, rfl⟩
    obtain ⟨uid, huid, -⟩ := wholeNumber?_of_placeOf? hq
    have hkey := asKey_eq_ok.mpr ⟨isKey_of_wholeNumber? huid, rfl⟩
    refine bind_eq_ok.mpr ⟨v, lift_eq_ok.mpr hkey, ?_⟩
    rw [hq]
    rfl

/-- The places of the boundaries of a region. -/
structure RangeOf (code : List Instruction) (r : Region) (a b c d : Nat) : Prop where
  tryStart : Method.placeOf? code r.tryStart = some a
  tryEnd : Method.placeOf? code r.tryEnd = some b
  handlerStart : Method.placeOf? code r.handlerStart = some c
  handlerEnd : Method.placeOf? code r.handlerEnd = some d
  tryOrder : a ≤ b
  handlerOrder : c ≤ d

/-- A region has one range. -/
theorem RangeOf.unique {code : List Instruction} {r : Region} {a b c d a' b' c' d' : Nat}
    (h : RangeOf code r a b c d) (h' : RangeOf code r a' b' c' d') :
    a = a' ∧ b = b' ∧ c = c' ∧ d = d' :=
  ⟨Option.some.inj (h.tryStart.symm.trans h'.tryStart),
    Option.some.inj (h.tryEnd.symm.trans h'.tryEnd),
    Option.some.inj (h.handlerStart.symm.trans h'.handlerStart),
    Option.some.inj (h.handlerEnd.symm.trans h'.handlerEnd)⟩

theorem regionRange_eq_ok {code : List Instruction} {index : Nat} {r : Region}
    {range : RegionRange} : regionRange code index r = .ok range
      ↔ ∃ a b c d : Nat, range = ⟨a, b, c, d⟩ ∧ RangeOf code r a b c d := by
  unfold regionRange
  constructor
  · intro h
    obtain ⟨ta, h1, h⟩ := bind_eq_ok.mp h
    obtain ⟨tb, h2, h⟩ := bind_eq_ok.mp h
    obtain ⟨hc, h3, h⟩ := bind_eq_ok.mp h
    obtain ⟨hd, h4, h⟩ := bind_eq_ok.mp h
    obtain ⟨a, ha, rfl⟩ := boundaryPlace_eq_ok.mp h1
    obtain ⟨b, hb, rfl⟩ := boundaryPlace_eq_ok.mp h2
    obtain ⟨c, hc, rfl⟩ := boundaryPlace_eq_ok.mp h3
    obtain ⟨d, hd, rfl⟩ := boundaryPlace_eq_ok.mp h4
    by_cases horder : (decide ((a : Int) > b) || decide ((c : Int) > d)) = true
    · rw [if_pos horder] at h
      cases h
    · rw [if_neg horder] at h
      cases h
      simp only [Bool.or_eq_true, decide_eq_true_eq, not_or] at horder
      exact ⟨a, b, c, d, rfl, ha, hb, hc, hd, by omega, by omega⟩
  · rintro ⟨a, b, c, d, rfl, h⟩
    refine bind_eq_ok.mpr ⟨a, boundaryPlace_eq_ok.mpr ⟨a, h.tryStart, rfl⟩, ?_⟩
    refine bind_eq_ok.mpr ⟨b, boundaryPlace_eq_ok.mpr ⟨b, h.tryEnd, rfl⟩, ?_⟩
    refine bind_eq_ok.mpr ⟨c, boundaryPlace_eq_ok.mpr ⟨c, h.handlerStart, rfl⟩, ?_⟩
    refine bind_eq_ok.mpr ⟨d, boundaryPlace_eq_ok.mpr ⟨d, h.handlerEnd, rfl⟩, ?_⟩
    have h1 := h.tryOrder
    have h2 := h.handlerOrder
    rw [if_neg (by simp only [Bool.or_eq_true, decide_eq_true_eq, not_or]; omega)]
    rfl

/-- When the targets and the mnemonic of an instruction are accepted. -/
theorem checkFlow_eq_ok {code : List Instruction} {ins : Instruction} :
    checkFlow code ins = .ok ()
      ↔ (∃ ts, ins.targets = .ok ts ∧ ∀ t ∈ ts, (Method.placeOf? code t).isSome)
        ∧ (ins.opcode = some .other → ins.mnemonic.isKey = true) := by
  have htarget (t : Value) : ((do
        let t ← Fault.lift t.asKey
        if (Method.placeOf? code t).isNone then throw (danglingBranch ins) : Except Fault Unit)
          = .ok ())
      ↔ (Method.placeOf? code t).isSome := by
    rw [bind_eq_ok]
    constructor
    · rintro ⟨v, hv, h⟩
      obtain ⟨-, rfl⟩ := asKey_eq_ok.mp (lift_eq_ok.mp hv)
      cases hp : Method.placeOf? code v with
      | none => rw [hp] at h; cases h
      | some p => rfl
    · intro h
      obtain ⟨p, hp⟩ := Option.isSome_iff_exists.mp h
      obtain ⟨uid, huid, -⟩ := wholeNumber?_of_placeOf? hp
      refine ⟨t, lift_eq_ok.mpr (asKey_eq_ok.mpr ⟨isKey_of_wholeNumber? huid, rfl⟩), ?_⟩
      rw [hp]
      rfl
  unfold checkFlow
  rw [bind_eq_ok]
  constructor
  · rintro ⟨ts, hts, h⟩
    obtain ⟨⟨⟩, htargets, h⟩ := bind_eq_ok.mp h
    refine ⟨⟨ts, lift_eq_ok.mp hts, fun t ht => (htarget t).mp (forM_eq_ok.mp htargets t ht)⟩, ?_⟩
    intro hop
    rw [hop] at h
    obtain ⟨v, hv, -⟩ := bind_eq_ok.mp h
    exact (asKey_eq_ok.mp (lift_eq_ok.mp hv)).1
  · rintro ⟨⟨ts, hts, htargets⟩, hmnemonic⟩
    refine ⟨ts, lift_eq_ok.mpr hts, bind_eq_ok.mpr ⟨(), ?_, ?_⟩⟩
    · exact forM_eq_ok.mpr fun t ht => (htarget t).mpr (htargets t ht)
    · by_cases hop : ins.opcode = some .other
      · rw [hop]
        exact bind_eq_ok.mpr
          ⟨ins.mnemonic, lift_eq_ok.mpr (asKey_eq_ok.mpr ⟨hmnemonic hop, rfl⟩), rfl⟩
      · rw [if_neg (by simpa using hop)]
        rfl

theorem mem_parts_handler (a b c d : Int) : (c, d) ∈ (⟨a, b, c, d⟩ : RegionRange).parts :=
  List.mem_cons_of_mem _ List.mem_cons_self

/-- What is recorded of an exit from a region. -/
theorem exitRecord_eq_some {code : List Instruction} {ranges : List RegionRange}
    {ins : Instruction} {place : Nat} {record : ExitRecord}
    (h : exitRecord code ranges ins place = .ok (some record)) :
    ins.opcode = some .leave ∧ record.uid = ins.uid
      ∧ ∃ (target : Nat) (r : RegionRange), ins.operand.toValue.asInt?.bind (Method.place? code)
          = some target ∧ ranges[record.region]? = some r
          ∧ record.bounded = decide ((target : Int) ≤ r.handlerEnd + 1) := by
  unfold exitRecord at h
  split at h
  · cases h
  · rename_i hop
    have hleave : ins.opcode = some .leave := by simpa using hop
    split at h
    · cases h
    · split at h
      · rename_i index _ _ _ target r htarget hr
        cases h
        exact ⟨hleave, rfl, target, r, htarget, hr, rfl⟩
      · cases h

/-! ## The graph that is built -/

theorem lt_freshUid {code : List Instruction} {ins : Instruction} (h : ins ∈ code) :
    ins.uid < Method.freshUid code := by
  have key (n : Int) : n ≤ code.foldl (fun n ins => max n (ins.uid + 1)) n
      ∧ ∀ ins ∈ code, ins.uid < code.foldl (fun n ins => max n (ins.uid + 1)) n := by
    clear h
    induction code generalizing n with
    | nil => exact ⟨Int.le_refl n, fun _ hin => absurd hin List.not_mem_nil⟩
    | cons i code ih =>
      obtain ⟨hle, hall⟩ := ih (max n (i.uid + 1))
      rw [List.foldl_cons]
      refine ⟨by omega, fun ins hin => ?_⟩
      rcases List.mem_cons.mp hin with rfl | hin
      · omega
      · exact hall ins hin
  exact (key 0).2 ins h

variable {m : Method} {terminators : List Value} {ranges : List RegionRange}
  {exits : List ExitRecord}

theorem cut_outline (m : Method) (terminators : List Value) (ranges : List RegionRange)
    (exits : List ExitRecord) :
    (cut m terminators ranges exits).outline
      = cutOutline m.code (blockStarts m.code ranges terminators) := by
  show ((runsFrom m.code _).filterMap blockOf).map _ = _
  rw [(blockStarts_places m.code ranges terminators).blocks_eq, List.map_map]
  rfl

theorem cut_labels (m : Method) (terminators : List Value) (ranges : List RegionRange)
    (exits : List ExitRecord) :
    (cut m terminators ranges exits).labels
      = (blockStarts m.code ranges terminators).map (labelAt m.code) := by
  rw [← Outline.labels_outline, cut_outline, Places.labels_cut]

@[simp] theorem cut_code (m : Method) (terminators : List Value) (ranges : List RegionRange)
    (exits : List ExitRecord) : (cut m terminators ranges exits).code = m.code := by
  rw [← Outline.code_outline, cut_outline]
  by_cases hne : m.code = []
  · rw [hne]
    rfl
  · have hplaces := blockStarts_places m.code ranges terminators
    obtain ⟨rest, hrest⟩ := List.head?_eq_some_iff.mp (blockStarts_head hne ranges terminators)
    rw [hrest] at hplaces ⊢
    have := hplaces.runs_code
    rw [List.drop_zero] at this
    conv => rhs; rw [← this]
    rw [cutOutline, Outline.code, List.flatMap_map]

/-- The labels of the blocks that start inside a range. -/
theorem labelsWithin_eq {code : List Instruction} {starts : List Nat} (h : Places code starts)
    (first last : Int) :
    labelsWithin code starts (first, last)
      = (starts.filter fun (p : Nat) => first ≤ (p : Int) && (p : Int) ≤ last).map
          (labelAt code) := by
  rw [labelsWithin, List.filterMap_eq_map_iff_forall_eq_some]
  intro p hp
  have hlt := h.inside p (List.mem_of_mem_filter hp)
  rw [List.getElem?_eq_getElem hlt, labelAt_eq (List.getElem?_eq_getElem hlt)]
  rfl

/-- The first block inside a range that starts with a block. -/
theorem head_within {starts : List Nat} (hrising : starts.Pairwise (· < ·)) {c d : Nat}
    (hc : c ∈ starts) (hcd : c ≤ d) :
    (starts.filter fun (p : Nat) => (c : Int) ≤ (p : Int) && (p : Int) ≤ (d : Int)).head?
      = some c := by
  induction starts with
  | nil => cases hc
  | cons s rest ih =>
    obtain ⟨hs, hrest⟩ := List.pairwise_cons.mp hrising
    rcases List.mem_cons.mp hc with rfl | hin
    · rw [List.filter_cons_of_pos (by simp; omega)]
      rfl
    · have hlt := hs c hin
      rw [List.filter_cons_of_neg (by simp; omega)]
      exact ih hrest hin

/-- An instruction of a block stands at a place of the method where no other block starts. -/
theorem place_of_mem {e : Int × List Instruction}
    (he : e ∈ (cut m terminators ranges exits).outline) :
    ∃ s, e.1 = labelAt m.code s ∧ ∀ i, i < e.2.length →
      e.2[i]? = m.code[s + i]? ∧ s + i < m.code.length
        ∧ (0 < i → s + i ∉ blockStarts m.code ranges terminators) := by
  rw [cut_outline] at he
  obtain ⟨⟨s, c⟩, hmem, rfl⟩ := List.mem_map.mp he
  exact ⟨s, rfl, ((blockStarts_places m.code ranges terminators).run_getElem? hmem).2.2⟩

/-- An instruction that gives a block its label is the first of that block. -/
theorem cut_own (hnodup : (m.code.map (·.uid)).Nodup) {e : Int × List Instruction}
    (he : e ∈ (cut m terminators ranges exits).outline) {ins : Instruction} (hins : ins ∈ e.2)
    (huid : ins.uid ∈ (cut m terminators ranges exits).labels) : ins.uid = e.1 := by
  have hplaces := blockStarts_places m.code ranges terminators
  obtain ⟨s, hs, hget⟩ := place_of_mem he
  obtain ⟨i, hi⟩ := List.mem_iff_getElem?.mp hins
  obtain ⟨hcode, hlt, hnot⟩ := hget i (List.getElem?_eq_some_iff.mp hi).1
  rw [hi] at hcode
  rw [cut_labels] at huid
  obtain ⟨p, hp, hsame⟩ := List.mem_map.mp huid
  rw [← labelAt_eq hcode.symm] at hsame ⊢
  have hpi := labelAt_inj hnodup (hplaces.inside p hp) hlt hsame
  rcases Nat.eq_zero_or_pos i with rfl | hpos
  · rw [hs, Nat.add_zero]
  · exact absurd (hpi ▸ hp) (hnot hpos)

/-- Behind an instruction that ends a run a block starts. -/
theorem cut_straight {e : Int × List Instruction}
    (he : e ∈ (cut m terminators ranges exits).outline) {ins : Instruction}
    (hins : ins ∈ e.2.dropLast) : ins.endsRun terminators = false := by
  obtain ⟨s, -, hget⟩ := place_of_mem he
  obtain ⟨i, hi⟩ := List.mem_iff_getElem?.mp hins
  have hlen := (List.getElem?_eq_some_iff.mp hi).1
  rw [List.length_dropLast] at hlen
  rw [List.getElem?_dropLast, if_pos hlen] at hi
  obtain ⟨hcode, -, -⟩ := hget i (by omega)
  obtain ⟨-, hlt, hnot⟩ := hget (i + 1) (by omega)
  cases hends : ins.endsRun terminators with
  | false => rfl
  | true =>
    rw [hi] at hcode
    exact absurd (mem_blockStarts_of_end hcode.symm hends hlt) (hnot (Nat.succ_pos i))

/-- The first block is the entry, and no other is. -/
theorem cut_entry {b : Block} {rest : List Block}
    (hblocks : (cut m terminators ranges exits).blocks = b :: rest) :
    b.isEntry = true ∧ ∀ c ∈ rest, c.isEntry = false := by
  have hplaces := blockStarts_places m.code ranges terminators
  have hfirst : m.code ≠ [] → (blockStarts m.code ranges terminators).head? = some 0 :=
    fun hne => blockStarts_head hne ranges terminators
  have hcut : (runsFrom m.code (blockStarts m.code ranges terminators)).filterMap blockOf
      = b :: rest := hblocks
  rw [hplaces.blocks_eq] at hcut
  obtain ⟨hrising, hinside⟩ := hplaces
  rw [← Places.runs_places m.code (blockStarts m.code ranges terminators)]
    at hrising hfirst hinside
  generalize runsFrom m.code (blockStarts m.code ranges terminators) = runs at *
  cases runs with
  | nil => cases hcut
  | cons run runs =>
    obtain ⟨rfl, rfl⟩ := List.cons.inj hcut
    rw [List.map_cons] at hrising hfirst hinside
    have hne : m.code ≠ [] := by
      intro hnil
      have hlt := hinside run.1 List.mem_cons_self
      rw [hnil] at hlt
      exact absurd hlt (Nat.not_lt_zero _)
    have hzero : run.1 = 0 := by simpa using hfirst hne
    refine ⟨by simp [hzero], fun c hc => ?_⟩
    obtain ⟨run', hrun', rfl⟩ := List.mem_map.mp hc
    have hlt := (List.pairwise_cons.mp hrising).1 run'.1 (List.mem_map_of_mem hrun')
    simp
    omega

namespace Accepts

/-- The range of a region. -/
theorem range_of_mem (h : Accepts m terminators ranges exits) {r : Region}
    {range : RegionRange} (hmem : (r, range) ∈ m.regions.zip ranges) :
    range ∈ ranges ∧ ∃ a b c d : Nat, range = ⟨a, b, c, d⟩ ∧ RangeOf m.code r a b c d := by
  obtain ⟨i, hi⟩ := List.mem_iff_getElem?.mp hmem
  obtain ⟨hr, hrange⟩ := List.getElem?_zip_eq_some.mp hi
  have hindexed : m.regions.zipIdx[i]? = some (r, i) := by
    rw [List.getElem?_zipIdx, hr]
    simp
  obtain ⟨range', hrange', hok⟩ := forall₂_getElem? h.fits hindexed
  rw [hrange] at hrange'
  cases hrange'
  exact ⟨List.mem_of_getElem? hrange, regionRange_eq_ok.mp hok⟩

/-- The boundaries of the handler of a region that is cut. -/
theorem handler_of_mem (h : Accepts m terminators ranges exits)
    (hnodup : (m.code.map (·.uid)).Nodup) {s : Span}
    (hs : s ∈ (cut m terminators ranges exits).spans) :
    ∃ c d : Nat, c ≤ d ∧ c ∈ blockStarts m.code ranges terminators
      ∧ s.handlerBlocks = ((blockStarts m.code ranges terminators).filter fun (p : Nat) =>
          (c : Int) ≤ (p : Int) && (p : Int) ≤ (d : Int)).map (labelAt m.code)
      ∧ s.region.handlerStart.wholeNumber? = some (labelAt m.code c) := by
  obtain ⟨⟨r, range⟩, hmem, rfl⟩ := List.mem_map.mp hs
  obtain ⟨hrange, a, b, c, d, rfl, hplaces⟩ := h.range_of_mem hmem
  obtain ⟨uid, huid, hplace⟩ := wholeNumber?_of_placeOf? hplaces.handlerStart
  obtain ⟨hlt, hlabel⟩ := (place?_eq_some hnodup).mp hplace
  refine ⟨c, d, hplaces.handlerOrder, ?_, ?_, ?_⟩
  · exact mem_blockStarts_of_range hrange (mem_parts_handler a b c d)
      hlt (Or.inl rfl)
  · exact labelsWithin_eq (blockStarts_places _ _ _) c d
  · rw [hlabel]
    exact huid

/-- A target names a place where a block starts. -/
theorem target (h : Accepts m terminators ranges exits) (hnodup : (m.code.map (·.uid)).Nodup)
    {ins : Instruction} (hins : ins ∈ m.code) :
    ∃ ts, ins.targets = .ok ts ∧ ∀ t ∈ ts, ∃ p ∈ blockStarts m.code ranges terminators,
      Method.placeOf? m.code t = some p ∧ t.wholeNumber? = some (labelAt m.code p) := by
  obtain ⟨⟨ts, hts, htargets⟩, -⟩ := checkFlow_eq_ok.mp (h.flows ins hins)
  refine ⟨ts, hts, fun t ht => ?_⟩
  obtain ⟨p, hp⟩ := Option.isSome_iff_exists.mp (htargets t ht)
  obtain ⟨uid, huid, hplace⟩ := wholeNumber?_of_placeOf? hp
  refine ⟨p, ?_, hp, ?_⟩
  · refine mem_blockStarts_of_target hins ?_ hplace
    rw [Instruction.targetUids, hts]
    exact List.mem_filterMap.mpr ⟨t, ht, huid⟩
  · rw [((place?_eq_some hnodup).mp hplace).2]
    exact huid

/-- An exit that is recorded is an instruction of the method. -/
theorem exists_exit (h : Accepts m terminators ranges exits) {record : ExitRecord}
    (hrecord : record ∈ exits) :
    ∃ ins ∈ m.code, ∃ place, exitRecord m.code ranges ins place = .ok (some record) := by
  obtain ⟨found, hfound, hexits⟩ := filterMapM_eq_ok.mp h.leaves
  rw [hexits] at hrecord
  obtain ⟨r, hr, rfl⟩ := List.mem_filterMap.mp hrecord
  obtain ⟨i, hi⟩ := List.mem_iff_getElem?.mp hr
  obtain ⟨⟨ins, p⟩, hins, hok⟩ := forall₂_getElem? hfound.flip hi
  have hzip := List.mem_of_getElem? hins
  exact ⟨ins, (List.mem_zipIdx' hzip).2 ▸ List.getElem_mem _, p, hok⟩

/-- An exit that is recorded belongs to a leave of the method. -/
theorem cut_exits (h : Accepts m terminators ranges exits)
    (hnodup : (m.code.map (·.uid)).Nodup) {record : ExitRecord} (hrecord : record ∈ exits) :
    record.uid < Method.freshUid m.code
      ∧ ∀ ins ∈ m.code, ins.uid = record.uid → ins.opcode = some .leave := by
  obtain ⟨ins', hin', p, hok⟩ := h.exists_exit hrecord
  obtain ⟨hleave, hsame, -⟩ := exitRecord_eq_some hok
  refine ⟨hsame ▸ lt_freshUid hin', fun ins hins huid => ?_⟩
  rw [List.inj_on_of_nodup_map hnodup hins hin' (huid.trans hsame)]
  exact hleave

/-- The blocks of a method that is accepted are a well-formed graph. -/
theorem cut_formed (h : Accepts m terminators ranges exits)
    (hnodup : (m.code.map (·.uid)).Nodup) : (cut m terminators ranges exits).Formed := by
  have hplaces := blockStarts_places m.code ranges terminators
  have hlabels := cut_labels m terminators ranges exits
  constructor
  case labels_nodup =>
    rw [← Outline.labels_outline, cut_outline]
    exact hplaces.labels_nodup hnodup
  case uids_nodup =>
    rw [cut_code]
    exact hnodup
  case labels_fresh =>
    rw [hlabels]
    intro l hl
    obtain ⟨p, hp, rfl⟩ := List.mem_map.mp hl
    have hlt := hplaces.inside p hp
    rw [labelAt_eq (List.getElem?_eq_getElem hlt)]
    exact lt_freshUid (List.getElem_mem hlt)
  case uids_fresh =>
    rw [cut_code]
    exact fun ins hins => lt_freshUid hins
  case own => exact fun e he ins hins huid => cut_own hnodup he hins huid
  case straight => exact fun e he ins hins => cut_straight he hins
  case targets =>
    rw [cut_code, hlabels]
    intro ins hins
    obtain ⟨ts, hts, htargets⟩ := h.target hnodup hins
    refine ⟨ts, hts, fun t ht => ?_⟩
    obtain ⟨p, hp, -, hwhole⟩ := htargets t ht
    exact ⟨labelAt m.code p, List.mem_map_of_mem hp, hwhole⟩
  case entry => exact fun b rest hblocks => cut_entry hblocks
  case handlers =>
    intro s hs
    obtain ⟨c, d, -, -, hblocks, -⟩ := h.handler_of_mem hnodup hs
    rw [hblocks, hlabels]
    exact (hplaces.infix_within c d).map _
  case starts =>
    intro s hs
    obtain ⟨c, d, hcd, hc, hblocks, hstart⟩ := h.handler_of_mem hnodup hs
    refine ⟨labelAt m.code c, ?_, hstart⟩
    rw [hblocks, List.head?_map, head_within hplaces.rising hc hcd]
    rfl
  case exits =>
    intro record hrecord
    rw [cut_code]
    exact h.cut_exits hnodup hrecord

/-- A span of the cut method belongs to a region, and its handler starts at the place that the
    region names. -/
theorem span_of_region (h : Accepts m terminators ranges exits)
    (hnodup : (m.code.map (·.uid)).Nodup) {index : Nat} {r : Region}
    (hr : m.regions[index]? = some r) :
    ∃ (s : Span) (c : Nat), (cut m terminators ranges exits).spans[index]? = some s
      ∧ s.region = r ∧ s.handlerBlocks.head? = some (labelAt m.code c)
      ∧ c ∈ blockStarts m.code ranges terminators
      ∧ Method.placeOf? m.code r.handlerStart = some c := by
  have hplaces := blockStarts_places m.code ranges terminators
  have hindexed : m.regions.zipIdx[index]? = some (r, index) := by
    rw [List.getElem?_zipIdx, hr]
    simp
  obtain ⟨range, hrange, hok⟩ := forall₂_getElem? h.fits hindexed
  obtain ⟨a, b, c, d, rfl, hat⟩ := regionRange_eq_ok.mp hok
  obtain ⟨uid, huid, hplace⟩ := wholeNumber?_of_placeOf? hat.handlerStart
  have hc : c ∈ blockStarts m.code ranges terminators :=
    mem_blockStarts_of_range (List.mem_of_getElem? hrange) (mem_parts_handler a b c d)
      ((place?_eq_some hnodup).mp hplace).1 (Or.inl rfl)
  refine ⟨spanOf m.code (blockStarts m.code ranges terminators) r ⟨a, b, c, d⟩, c, ?_, rfl, ?_,
    hc, hat.handlerStart⟩
  · show ((m.regions.zip ranges).map _)[index]? = _
    have hzip : (m.regions.zip ranges)[index]? = some (r, ⟨a, b, c, d⟩) :=
      List.getElem?_zip_eq_some.mpr ⟨hr, hrange⟩
    rw [List.getElem?_map, hzip]
    rfl
  · show (labelsWithin m.code _ (_, _)).head? = _
    rw [labelsWithin_eq hplaces, List.head?_map,
      head_within hplaces.rising hc hat.handlerOrder]
    rfl

/-- The graph that is built shows what the method shows. -/
theorem refines (h : Accepts m terminators ranges exits) (hnodup : (m.code.map (·.uid)).Nodup)
    (P : Platform) {place : List Instruction} {place' : Outline}
    (hplace' : place' <:+ (cut m terminators ranges exits).outline)
    (hcode : Outline.code place' = place) (σ : Moment) :
    Process.Refines (Method.stream P m.code) place
      ((cut m terminators ranges exits).outline.process P) place' σ := by
  have hformed := h.cut_formed hnodup
  have houtline : (cut m terminators ranges exits).outline.code = m.code := by
    rw [Outline.code_outline, cut_code]
  have hredirects : Redirects P (cut m terminators ranges exits).outline.code
      (cut m terminators ranges exits).outline.codeAt?
      (Method.enter? ((cut m terminators ranges exits).outline.code.map id)) id := by
    refine ⟨fun t p => Outline.codeAt?_subset, fun ins hins σ => ?_⟩
    rw [houtline] at hins ⊢
    rw [id, List.map_id]
    cases hact : ins.act P σ with
    | next τ => exact Or.inr ⟨rfl, by simp⟩
    | halted how τ => exact Or.inr ⟨rfl, by simp⟩
    | jump t τ =>
      refine Or.inl ⟨t, τ, t, rfl, rfl, ?_⟩
      have ht := (Instruction.mem_aims_of_act hact).2
      rw [hformed.aims_copy (by rw [cut_code]; exact hins)] at ht
      obtain ⟨ts, hts, htargets⟩ := h.target hnodup hins
      have haims : ins.aims = ts := by simp [Instruction.aims, hts, Except.toOption]
      obtain ⟨p, hp, hplace, hwhole⟩ := htargets t (haims ▸ ht)
      have hfrom := (blockStarts_places m.code ranges terminators).from?_cut hnodup hp
      rw [Method.enter?, hplace, List.map_id_fun, Option.map_id, Outline.codeAt?,
        Outline.enter?, hwhole, Option.bind_some, cut_outline, hfrom]
      rfl
  have := (Outline.refines_stream P hredirects hplace' σ).2
  rw [houtline, List.map_id, List.map_id, hcode] at this
  exact this

end Accepts

/-- The graph that is built of a method is well-formed, and its edges are up to date. -/
theorem build_formed {m : Method} {terminators : List Value} {g : Graph}
    (h : build m terminators = .ok g) (hnodup : (m.code.map (·.uid)).Nodup) :
    g.Formed ∧ g.Linked := by
  obtain ⟨ranges, exits, haccepts, rfl⟩ := build_eq_ok.mp h
  have hformed := haccepts.cut_formed hnodup
  exact ⟨hformed.connected, hformed.linked⟩

/-- The graph that is built of a method shows what the method shows, from the start. -/
theorem build_refines {m : Method} {terminators : List Value} {g : Graph}
    (h : build m terminators = .ok g) (hnodup : (m.code.map (·.uid)).Nodup) (P : Platform)
    (σ : Moment) :
    Process.Refines (Method.stream P m.code) m.code (g.outline.process P) g.outline σ := by
  obtain ⟨ranges, exits, haccepts, rfl⟩ := build_eq_ok.mp h
  rw [connected_outline]
  refine haccepts.refines hnodup P (List.suffix_refl _) ?_ σ
  rw [Outline.code_outline, cut_code]

/-- The graph that is built of a method shows what the method shows, from the start of each
    handler. -/
theorem build_refines_handler {m : Method} {terminators : List Value} {g : Graph}
    (h : build m terminators = .ok g) (hnodup : (m.code.map (·.uid)).Nodup) (P : Platform)
    {index : Nat} {r : Region} (hr : m.regions[index]? = some r) :
    ∃ place place', Method.enter? m.code r.handlerStart = some place
      ∧ g.handlerPlace? index = some place'
      ∧ ∀ σ, Process.Refines (Method.stream P m.code) place (g.outline.process P) place' σ := by
  obtain ⟨ranges, exits, haccepts, rfl⟩ := build_eq_ok.mp h
  obtain ⟨s, c, hs, -, hhead, hc, hplace⟩ := haccepts.span_of_region hnodup hr
  have hfrom := (blockStarts_places m.code ranges terminators).from?_cut hnodup hc
  obtain ⟨place', hplace', hcode⟩ := Option.map_eq_some_iff.mp hfrom
  rw [← cut_outline m terminators ranges exits] at hplace'
  refine ⟨m.code.drop c, place', ?_, ?_, fun σ => ?_⟩
  · rw [Method.enter?, hplace]
    rfl
  · have hspan : (cut m terminators ranges exits).connected.spans[index]? = some s := hs
    rw [handlerPlace?, hspan, Option.bind_some, hhead, Option.bind_some, connected_outline]
    exact hplace'
  · rw [connected_outline]
    exact haccepts.refines hnodup P (Outline.from?_eq_some hplace').1 hcode σ

theorem build_code {m : Method} {terminators : List Value} {g : Graph}
    (h : build m terminators = .ok g) : g.code = m.code := by
  obtain ⟨ranges, exits, -, rfl⟩ := build_eq_ok.mp h
  rw [connected_code, cut_code]

theorem build_terminators {m : Method} {terminators : List Value} {g : Graph}
    (h : build m terminators = .ok g) : g.terminators = terminators := by
  obtain ⟨ranges, exits, -, rfl⟩ := build_eq_ok.mp h
  rfl

/-- The regions of a method are those of the spans of its graph. -/
theorem build_regions {m : Method} {terminators : List Value} {g : Graph}
    (h : build m terminators = .ok g) : g.spans.map (·.region) = m.regions := by
  obtain ⟨ranges, exits, haccepts, rfl⟩ := build_eq_ok.mp h
  have hlength : m.regions.length = ranges.length := by
    rw [← haccepts.fits.length_eq, List.length_zipIdx]
  show ((m.regions.zip ranges).map _).map _ = _
  rw [List.map_map]
  show (m.regions.zip ranges).map Prod.fst = _
  exact List.map_fst_zip (Nat.le_of_eq hlength)

/-- Every block starts with the instruction that labels it. -/
def FirstLabels (g : Graph) : Prop :=
  ∀ e ∈ g.outline, ∃ first rest, e.2 = first :: rest ∧ first.uid = e.1

theorem build_firstLabels {m : Method} {terminators : List Value} {g : Graph}
    (h : build m terminators = .ok g) : g.FirstLabels := by
  obtain ⟨ranges, exits, -, rfl⟩ := build_eq_ok.mp h
  intro e he
  rw [connected_outline, cut_outline] at he
  exact (blockStarts_places m.code ranges terminators).first_of_mem he

end Graph

end Untangle
