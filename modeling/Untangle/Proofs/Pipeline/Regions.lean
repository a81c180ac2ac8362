/-
  Untangle.Proofs.Pipeline.Regions

  Protection by regions (`Method.normalize_protects`). A region that is left where it was keeps
  its instructions, because what is left of the stream stands in its order. A region that is moved
  keeps them because it is moved to the blocks that it covered, and those are joined only to blocks
  of the same regions.
-/
import Untangle.Proofs.Pipeline.Stream

namespace Untangle

namespace Method

/-- The instruction with a uid lies between the two that are named, or is one of them. -/
def Between (code : List Instruction) (range : Value × Value) (u : Int) : Prop :=
  ∃ a q b, placeOf? code range.1 = some a ∧ place? code u = some q
    ∧ placeOf? code range.2 = some b ∧ a ≤ q ∧ q ≤ b

/-- A range of a region protects of what is left of a stream what it protected. If all regions
    are moved, it protects a new instruction when it protected the dispatch behind that. -/
structure RangeKept (code code' : List Instruction) (moved : Prop) (range range' : Value × Value) :
    Prop where
  left : ∀ u ∈ code.map (·.uid), u ∈ code'.map (·.uid) →
    (Between code' range' u ↔ Between code range u)
  joined : moved → ∀ before j branch rest, code' = before ++ j :: branch :: rest →
    j.uid ∉ code.map (·.uid) → (Between code' range' j.uid ↔ Between code range branch.uid)

/-- A region is kept: what it handles, and what its ranges protect. -/
structure RegionKept (code code' : List Instruction) (moved : Prop) (r r' : Region) : Prop where
  kind : r'.kind = r.kind
  catchType : r'.catchType = r.catchType
  /-- The boundaries name instructions, and stand in order. -/
  bounded : ∃ a b c d, Graph.RangeOf code' r' a b c d
  tries : RangeKept code code' moved (r.tryStart, r.tryEnd) (r'.tryStart, r'.tryEnd)
  handlers : RangeKept code code' moved (r.handlerStart, r.handlerEnd)
    (r'.handlerStart, r'.handlerEnd)

variable {code code' : List Instruction}

theorem getElem?_of_place? (hnodup : (code.map (·.uid)).Nodup) {u : Int} {q : Nat}
    (h : place? code u = some q) : (code.map (·.uid))[q]? = some u := by
  obtain ⟨hlt, hlabel⟩ := (Graph.place?_eq_some hnodup).mp h
  unfold Graph.labelAt at hlabel
  rw [List.getElem?_map, List.getElem?_eq_getElem hlt]
  rw [List.getElem?_eq_getElem hlt] at hlabel
  exact congrArg some hlabel

theorem place?_of_getElem? (hnodup : (code.map (·.uid)).Nodup) {u : Int} {q : Nat}
    (h : (code.map (·.uid))[q]? = some u) : place? code u = some q := by
  rw [List.getElem?_map] at h
  obtain ⟨ins, hins, rfl⟩ := Option.map_eq_some_iff.mp h
  exact (Graph.place?_eq_some hnodup).mpr
    ⟨(List.getElem?_eq_some_iff.mp hins).1, Graph.labelAt_eq hins⟩

theorem getElem?_run {before run after : List Instruction} (hsplit : code = before ++ run ++ after)
    {i : Nat} (hi : i < run.length) :
    (code.map (·.uid))[before.length + i]? = (run.map (·.uid))[i]? := by
  rw [hsplit, List.append_assoc, List.map_append, List.map_append,
    List.getElem?_append_right (by simp), List.getElem?_append_left]
  · simp
  · simpa using hi

/-- Where the first and the last of a run of instructions stand. -/
theorem place?_run (hnodup : (code.map (·.uid)).Nodup) {before run after : List Instruction}
    (hsplit : code = before ++ run ++ after) {first last : Int}
    (hfirst : run.head?.map (·.uid) = some first) (hlast : run.getLast?.map (·.uid) = some last) :
    place? code first = some before.length
      ∧ place? code last = some (before.length + (run.length - 1)) := by
  have hpos : 0 < run.length := by
    cases run with
    | nil => cases hfirst
    | cons _ _ => exact Nat.succ_pos _
  constructor
  · refine place?_of_getElem? hnodup ?_
    rw [← List.head?_map, List.head?_eq_getElem?] at hfirst
    rw [← hfirst]
    exact getElem?_run hsplit hpos
  · refine place?_of_getElem? hnodup ?_
    rw [← List.getLast?_map, List.getLast?_eq_getElem?, List.length_map] at hlast
    rw [← hlast]
    exact getElem?_run hsplit (by omega)

/-- Between the boundaries of a run of instructions stand those of the run. -/
theorem between_run (hnodup : (code.map (·.uid)).Nodup) {before run after : List Instruction}
    (hsplit : code = before ++ run ++ after) {range : Value × Value} {first last : Int}
    (hfirst : run.head?.map (·.uid) = some first) (hlast : run.getLast?.map (·.uid) = some last)
    (hstart : range.1.wholeNumber? = some first) (hend : range.2.wholeNumber? = some last)
    (u : Int) : Between code range u ↔ u ∈ run.map (·.uid) := by
  have hpos : 0 < run.length := by
    cases run with
    | nil => cases hfirst
    | cons _ _ => exact Nat.succ_pos _
  obtain ⟨ha, hb⟩ := place?_run hnodup hsplit hfirst hlast
  have ha : placeOf? code range.1 = some before.length := by rw [placeOf?, hstart]; exact ha
  have hb : placeOf? code range.2 = some (before.length + (run.length - 1)) := by
    rw [placeOf?, hend]
    exact hb
  constructor
  · rintro ⟨a, q, b, ha', hq, hb', haq, hqb⟩
    obtain rfl : before.length = a := Option.some.inj (ha.symm.trans ha')
    obtain rfl : before.length + (run.length - 1) = b := Option.some.inj (hb.symm.trans hb')
    have hu := getElem?_of_place? hnodup hq
    rw [show q = before.length + (q - before.length) by omega, getElem?_run hsplit (by omega)] at hu
    exact List.mem_of_getElem? hu
  · intro hu
    obtain ⟨i, hi⟩ := List.mem_iff_getElem?.mp hu
    have hlt : i < run.length := by simpa using (List.getElem?_eq_some_iff.mp hi).1
    exact ⟨before.length, before.length + i, before.length + (run.length - 1), ha,
      place?_of_getElem? hnodup ((getElem?_run hsplit hlt).trans hi), hb, by omega, by omega⟩

/-- Two instructions that are left stand in the same order as before. -/
theorem place_le_iff (hnodup : (code.map (·.uid)).Nodup) (hnodup' : (code'.map (·.uid)).Nodup)
    (horder : ((code'.map (·.uid)).filter (code.map (·.uid)).contains).Sublist (code.map (·.uid)))
    {u v : Int} {p q p' q' : Nat} (hp : place? code u = some p) (hq : place? code v = some q)
    (hp' : place? code' u = some p') (hq' : place? code' v = some q') : p' ≤ q' ↔ p ≤ q := by
  have hu := getElem?_of_place? hnodup hp
  have hv := getElem?_of_place? hnodup hq
  have hu' := getElem?_of_place? hnodup' hp'
  have hv' := getElem?_of_place? hnodup' hq'
  have hleft {w : Int} {k k' : Nat} (hw : (code.map (·.uid))[k]? = some w)
      (hw' : (code'.map (·.uid))[k']? = some w) :
      ∃ i : Nat, ((code'.map (·.uid)).filter (code.map (·.uid)).contains)[i]? = some w :=
    List.mem_iff_getElem?.mp (List.mem_filter.mpr ⟨List.mem_of_getElem? hw',
      List.contains_iff_mem.mpr (List.mem_of_getElem? hw)⟩)
  obtain ⟨i, hi⟩ := hleft hu hu'
  obtain ⟨j, hj⟩ := hleft hv hv'
  exact (le_iff_of_sublist hnodup' List.filter_sublist hi hj hu' hv').symm.trans
    (le_iff_of_sublist hnodup horder hi hj hu hv)

/-- A range that stays protects what it protected, since what is left stands in its order. -/
theorem RangeKept.of_order (hnodup : (code.map (·.uid)).Nodup) (hnodup' : (code'.map (·.uid)).Nodup)
    (horder : ((code'.map (·.uid)).filter (code.map (·.uid)).contains).Sublist (code.map (·.uid)))
    {range : Value × Value} {a b a' b' : Nat} (ha : placeOf? code range.1 = some a)
    (hb : placeOf? code range.2 = some b) (ha' : placeOf? code' range.1 = some a')
    (hb' : placeOf? code' range.2 = some b') {moved : Prop} (hmoved : ¬ moved) :
    RangeKept code code' moved range range := by
  have hle {u v : Int} {p q p' q' : Nat} (hp : place? code u = some p) (hq : place? code v = some q)
      (hp' : place? code' u = some p') (hq' : place? code' v = some q') : p' ≤ q' ↔ p ≤ q :=
    place_le_iff hnodup hnodup' horder hp hq hp' hq'
  refine ⟨fun u hu hu' => ?_, fun h => absurd h hmoved⟩
  obtain ⟨s, hs, hsa⟩ := Option.bind_eq_some_iff.mp ha
  obtain ⟨e, he, heb⟩ := Option.bind_eq_some_iff.mp hb
  have hsa' : place? code' s = some a' := by rwa [placeOf?, hs] at ha'
  have heb' : place? code' e = some b' := by rwa [placeOf?, he] at hb'
  obtain ⟨q, hq⟩ := List.mem_iff_getElem?.mp hu
  obtain ⟨q', hq'⟩ := List.mem_iff_getElem?.mp hu'
  have hq := place?_of_getElem? hnodup hq
  have hq' := place?_of_getElem? hnodup' hq'
  constructor
  · rintro ⟨x, y, z, hx, hy, hz, hxy, hyz⟩
    obtain rfl : a' = x := Option.some.inj (ha'.symm.trans hx)
    obtain rfl : q' = y := Option.some.inj (hq'.symm.trans hy)
    obtain rfl : b' = z := Option.some.inj (hb'.symm.trans hz)
    exact ⟨a, q, b, ha, hq, hb, (hle hsa hq hsa' hq').mp hxy, (hle hq heb hq' heb').mp hyz⟩
  · rintro ⟨x, y, z, hx, hy, hz, hxy, hyz⟩
    obtain rfl : a = x := Option.some.inj (ha.symm.trans hx)
    obtain rfl : q = y := Option.some.inj (hq.symm.trans hy)
    obtain rfl : b = z := Option.some.inj (hb.symm.trans hz)
    exact ⟨a', q', b', ha', hq', hb', (hle hsa hq hsa' hq').mpr hxy, (hle hq heb hq' heb').mpr hyz⟩

end Method

namespace Graph.Traced

open Method (Between RangeKept RegionKept)

variable {g₀ g : Graph} {T : List Stretch} {f : Instruction → List Instruction}
  {code : List Instruction} {new : Method} {labels : List Int} {range range' : Value × Value}

/-- An instruction of the method was protected by a range that covers some blocks if its stretch
    starts with one of them. -/
theorem between_source (h : Traced g₀ g T f) (h₀ : g₀.Formed) (hcode₀ : g₀.code = code)
    {a b : Nat} (hcovers : g₀.Covers code a b labels) (ha : Method.placeOf? code range.1 = some a)
    (hb : Method.placeOf? code range.2 = some b)
    (htogether : ∀ r ∈ T, ∀ e ∈ r.blocks, r.label ∈ labels ↔ e.1 ∈ labels) {r : Stretch}
    (hr : r ∈ T) {ins : Instruction} (hins : ins ∈ r.code) :
    Between code range ins.uid ↔ r.label ∈ labels := by
  have hnodup : (code.map (·.uid)).Nodup := hcode₀ ▸ h₀.uids_nodup
  obtain ⟨e, he, hin⟩ := List.mem_flatMap.mp hins
  have hu : ins.uid ∈ code.map (·.uid) := List.mem_map_of_mem (hcode₀ ▸ h.mem_code₀ hr hins)
  obtain ⟨q, hq⟩ := List.mem_iff_getElem?.mp hu
  have hq := Method.place?_of_getElem? hnodup hq
  rw [htogether r hr e he, hcovers.inside e (h.mem_outline₀ hr he) ins hin q hq]
  constructor
  · rintro ⟨x, y, z, hx, hy, hz, hxy, hyz⟩
    obtain rfl : a = x := Option.some.inj (ha.symm.trans hx)
    obtain rfl : q = y := Option.some.inj (hq.symm.trans hy)
    obtain rfl : b = z := Option.some.inj (hb.symm.trans hz)
    exact ⟨hxy, hyz⟩
  · rintro ⟨haq, hqb⟩
    exact ⟨a, q, b, ha, hq, hb, haq, hqb⟩

/-- What is left of a stretch is protected by a range that is moved to some blocks if it starts
    with one of them. -/
theorem between_left (h : Traced g₀ g T f) (hwritten : g.Written new)
    (hrun : labels.filter g.labels.contains <:+: g.labels) {first last : Int}
    (hbounds : g.spanBounds? (labels.filter g.labels.contains) = some (first, last))
    (hstart : range'.1.wholeNumber? = some first) (hend : range'.2.wholeNumber? = some last)
    {r : Stretch} (hr : r ∈ T) {j : Instruction} (hj : j ∈ (r.image f).2) :
    Between new.code range' j.uid ↔ r.label ∈ labels := by
  obtain ⟨before, run, after, houtline, hlabels, hfirst, hlast⟩ :=
    Reconcile.exists_run_of_bounds h.formed hrun hbounds
  have hsplit : new.code = (Outline.code before).map g.relinkInstruction
      ++ (Outline.code run).map g.relinkInstruction
      ++ (Outline.code after).map g.relinkInstruction := by
    rw [hwritten.code, ← Outline.code_outline, houtline, Outline.code_append, Outline.code_append,
      List.map_append, List.map_append]
  have himage : r.image f ∈ g.outline := h.outline ▸ List.mem_map_of_mem hr
  have hsub : ∀ e ∈ run, e ∈ g.outline := fun e he => by rw [houtline]; simp [he]
  have hend' : ((Outline.code run).map g.relinkInstruction).getLast?.map (·.uid) = some last := by
    rw [← hlast, ← List.getLast?_map, relinked_uids, List.getLast?_map]
  have hfirst' : ((Outline.code run).map g.relinkInstruction).head?.map (·.uid) = some first := by
    rw [← hfirst, ← List.head?_map, relinked_uids, List.head?_map]
  rw [Method.between_run (hwritten.uids_nodup h.formed) hsplit hfirst' hend' hstart hend,
    relinked_uids]
  constructor
  · intro hu
    obtain ⟨k, hk, huid⟩ := List.mem_map.mp hu
    obtain ⟨e, he, hin⟩ := List.mem_flatMap.mp hk
    have hsame : e = r.image f := h.formed.eq_of_shared (hsub e he) himage hin hj huid
    have hlabel : r.label ∈ Outline.labels run := List.mem_map.mpr ⟨e, he, by rw [hsame]; rfl⟩
    rw [hlabels] at hlabel
    exact List.mem_of_mem_filter hlabel
  · intro hlabel
    have hleft : r.label ∈ Outline.labels run := by
      rw [hlabels]
      refine List.mem_filter.mpr ⟨hlabel, List.contains_iff_mem.mpr ?_⟩
      exact h.labels ▸ List.mem_map_of_mem hr
    obtain ⟨e, he, hsame⟩ := List.mem_map.mp hleft
    have heq : e = r.image f :=
      List.inj_on_of_nodup_map h.formed.outline_nodup (hsub e he) himage hsame
    exact List.mem_map_of_mem (List.mem_flatMap.mpr ⟨e, he, heq ▸ hj⟩)

/-- What is left of the first graph stands in its order. -/
theorem order_known (h : Traced g₀ g T f) (h₀ : g₀.Formed) :
    ((g.code.map (·.uid)).filter (g₀.code.map (·.uid)).contains).Sublist
      (g₀.code.map (·.uid)) := by
  refine h.order fun u hu => Bool.eq_false_iff.mpr fun hc => ?_
  obtain ⟨i, hi, rfl⟩ := List.mem_map.mp (List.contains_iff_mem.mp hc)
  have := h₀.uids_fresh i hi
  omega

/-- A range that is moved to the blocks that it covered protects what it protected. -/
theorem rangeKept (h : Traced g₀ g T f) (h₀ : g₀.Formed) (hcode₀ : g₀.code = code)
    (hwritten : g.Written new) {a b : Nat} (hcovers : g₀.Covers code a b labels)
    (ha : Method.placeOf? code range.1 = some a) (hb : Method.placeOf? code range.2 = some b)
    (htogether : ∀ r ∈ T, ∀ e ∈ r.blocks, r.label ∈ labels ↔ e.1 ∈ labels) {first last : Int}
    (hbounds : g.spanBounds? (labels.filter g.labels.contains) = some (first, last))
    (hstart : range'.1.wholeNumber? = some first) (hend : range'.2.wholeNumber? = some last)
    (moved : Prop) : RangeKept code new.code moved range range' := by
  have hrun := h.run_left h₀ hcovers.run
  have himage {r : Stretch} {ins j : Instruction} (hins : ins ∈ r.code) (hj : j ∈ f ins) :
      j ∈ (r.image f).2 := List.mem_flatMap.mpr ⟨ins, hins, hj⟩
  constructor
  · intro u hu hu'
    rw [hwritten.code] at hu'
    obtain ⟨j', hj', rfl⟩ := List.mem_map.mp hu'
    obtain ⟨j, hj, rfl⟩ := List.mem_map.mp hj'
    rw [relinkInstruction_uid] at hu ⊢
    obtain ⟨r, hr, ins, hins, hin, hrewritten⟩ := h.exists_source hj
    have huid : j.uid = ins.uid := by
      rcases hrewritten.uid_cases hin with hsame | ⟨hfresh, -⟩
      · exact hsame
      · obtain ⟨i, hi, hsame⟩ := List.mem_map.mp hu
        have := h₀.uids_fresh i (hcode₀ ▸ hi)
        omega
    rw [h.between_left hwritten hrun hbounds hstart hend hr (himage hins hin), huid,
      h.between_source h₀ hcode₀ hcovers ha hb htogether hr hins]
  · intro _ before j' branch rest hsplit hnew
    have hj' : j' ∈ new.code := by rw [hsplit]; simp
    rw [hwritten.code] at hj'
    obtain ⟨j, hj, rfl⟩ := List.mem_map.mp hj'
    obtain ⟨r, hr, ins, hins, hin, hrewritten⟩ := h.exists_source hj
    rw [relinkInstruction_uid] at hnew ⊢
    -- The instruction behind the discard is what the dispatch has become.
    rcases hrewritten.uid_cases hin with hsame | ⟨-, -, -, t, hpair⟩
    · exact absurd (hsame ▸ List.mem_map_of_mem (hcode₀ ▸ h.mem_code₀ hr hins)) hnew
    obtain ⟨front, behind, hcut⟩ :=
      List.append_of_mem (List.mem_flatMap.mpr ⟨r, hr, hins⟩ : ins ∈ T.flatMap Stretch.code)
    have hsplit' : new.code = (front.flatMap f).map g.relinkInstruction
        ++ g.relinkInstruction j :: g.relinkInstruction (ins.become .branch (.value t))
          :: (behind.flatMap f).map g.relinkInstruction := by
      rw [hwritten.code, h.code, hcut, List.flatMap_append, List.flatMap_cons, hpair]
      simp
    have hnodup := (hwritten.uids_nodup h.formed).of_map
    rw [hsplit] at hnodup
    obtain ⟨-, hrest⟩ := append_cons_inj_of_nodup hnodup (hsplit.symm.trans hsplit')
    obtain ⟨rfl, -⟩ := List.cons.inj hrest
    rw [relinkInstruction_uid]
    show _ ↔ Between code range ins.uid
    rw [h.between_left hwritten hrun hbounds hstart hend hr (himage hins hin),
      h.between_source h₀ hcode₀ hcovers ha hb htogether hr hins]

/-- A region that is moved to what is left of its blocks is kept. -/
theorem regionKept_moved (h : Traced g₀ g T f) (h₀ : g₀.Formed) (hcode₀ : g₀.code = code)
    (hwritten : g.Written new) {s : Span} (hs : s ∈ g₀.spans) {a b c d : Nat}
    (hat : RangeOf code s.region a b c d) (htries : g₀.Covers code a b s.tryBlocks)
    (hhandlers : g₀.Covers code c d s.handlerBlocks) {index : Nat}
    (hnone : Reconcile.regionIssues g index (s.within g.labels) = []) {r' : Region}
    (hr' : ((Reconcile.moved? g (s.within g.labels)).getD (s.within g.labels)).region = r')
    (hbounded : ∃ a b c d, RangeOf new.code r' a b c d) (moved : Prop) :
    RegionKept code new.code moved s.region r' := by
  obtain ⟨htryBounds, hhandlerBounds⟩ := Reconcile.bounds_of_regionIssues hnone
  obtain ⟨tries, htryBounds⟩ := Option.isSome_iff_exists.mp htryBounds
  obtain ⟨handlers, hhandlerBounds⟩ := Option.isSome_iff_exists.mp hhandlerBounds
  obtain ⟨⟨hts, hte⟩, hhs, hhe⟩ := Reconcile.moved_boundaries htryBounds hhandlerBounds hr'
  obtain ⟨hkind, hcatch⟩ := Reconcile.moved_kind g (s.within g.labels)
  rw [hr'] at hkind hcatch
  exact ⟨hkind, hcatch, hbounded,
    h.rangeKept h₀ hcode₀ hwritten htries hat.tryStart hat.tryEnd
      (fun r hr e he => (h.regions r hr e he s hs).1) htryBounds hts hte moved,
    h.rangeKept h₀ hcode₀ hwritten hhandlers hat.handlerStart hat.handlerEnd
      (fun r hr e he => (h.regions r hr e he s hs).2) hhandlerBounds hhs hhe moved⟩

/-- A region that stays as it is is kept. -/
theorem regionKept_same (h : Traced g₀ g T f) (h₀ : g₀.Formed) (hcode₀ : g₀.code = code)
    (hwritten : g.Written new) {r : Region} {a b c d a' b' c' d' : Nat}
    (hat : RangeOf code r a b c d) (hat' : RangeOf new.code r a' b' c' d') {moved : Prop}
    (hmoved : ¬ moved) : RegionKept code new.code moved r r := by
  have hnodup : (code.map (·.uid)).Nodup := hcode₀ ▸ h₀.uids_nodup
  have hnodup' := hwritten.uids_nodup h.formed
  have horder : ((new.code.map (·.uid)).filter (code.map (·.uid)).contains).Sublist
      (code.map (·.uid)) := by
    rw [hwritten.uids, ← hcode₀]
    exact h.order_known h₀
  exact ⟨rfl, rfl, ⟨a', b', c', d', hat'⟩,
    .of_order hnodup hnodup' horder hat.tryStart hat.tryEnd hat'.tryStart hat'.tryEnd hmoved,
    .of_order hnodup hnodup' horder hat.handlerStart hat.handlerEnd hat'.handlerStart
      hat'.handlerEnd hmoved⟩

end Graph.Traced

namespace Method

variable {m : Method} {settings : Settings}

theorem Between.copy {code : List Instruction} {range : Value × Value} {u : Int} :
    Between (code.map Instruction.copy) range u ↔ Between code range u := by
  unfold Between
  simp only [placeOf?_map code Instruction.copy_uid, place?_map code Instruction.copy_uid]

theorem RangeKept.of_copy {code code' : List Instruction} {moved : Prop}
    {range range' : Value × Value}
    (h : RangeKept (code.map Instruction.copy) code' moved range range') :
    RangeKept code code' moved range range' := by
  obtain ⟨hleft, hjoined⟩ := h
  rw [Instruction.copy_uids] at hleft hjoined
  simp only [Between.copy] at hleft hjoined
  exact ⟨hleft, hjoined⟩

theorem RegionKept.of_copy {code code' : List Instruction} {moved : Prop} {r r' : Region}
    (h : RegionKept (code.map Instruction.copy) code' moved r r') :
    RegionKept code code' moved r r' :=
  ⟨h.kind, h.catchType, h.bounded, h.tries.of_copy, h.handlers.of_copy⟩

/-- Regions protect what they protected, when a method is rewritten. None is lost and none is
    made. Discards in front of resolved dispatches are protected as these were, when the stage
    runs that moves regions. -/
theorem normalize_protects (m : Method) (settings : Settings)
    (hnodup : (m.code.map (·.uid)).Nodup) (h : (m.normalize settings).rewritten = true) :
    List.Forall₂ (RegionKept m.code (m.normalize settings).body.code
        (.exceptionReconciler ∈ settings.activeKinds))
      m.regions (m.normalize settings).body.regions := by
  obtain ⟨M, hmachine⟩ := machine_of_rewritten hnodup h
  obtain ⟨g₀, g, hbuild, hsound, -, hwritten, hmoved⟩ :=
    normalize_written (P := ⟨M, default, settings.terminators⟩) hnodup hmachine rfl h
  obtain ⟨T, f, htraced⟩ := hsound.traced
  have hcopy := copy_nodup hnodup
  obtain ⟨h₀, -⟩ := Graph.build_formed hbuild hcopy
  have hcode : g₀.code = m.code.map Instruction.copy := Graph.build_code hbuild
  have hregions : g₀.spans.map (·.region) = m.regions := Graph.build_regions (m := m.copy) hbuild
  generalize (m.normalize settings).body = new at hwritten hmoved
  have hnew := hwritten.valid.regions
  -- Where the regions were.
  have hat : ∀ s ∈ g₀.spans, ∃ a b c d, Graph.RangeOf m.copy.code s.region a b c d
      ∧ g₀.Covers m.copy.code a b s.tryBlocks ∧ g₀.Covers m.copy.code c d s.handlerBlocks := by
    intro s hs
    obtain ⟨index, hindex⟩ := List.mem_iff_getElem?.mp hs
    have hr : m.regions[index]? = some s.region := by
      rw [← hregions, List.getElem?_map, hindex]
      rfl
    obtain ⟨s', a, b, c, d, hs', -, hcovers⟩ := Graph.build_covers (m := m.copy) hbuild hcopy hr
    rw [hindex] at hs'
    cases hs'
    exact ⟨a, b, c, d, hcovers⟩
  have hwhole {moved : Prop} (hall : g.RegionsMoved new) :
      List.Forall₂ (RegionKept m.code new.code moved) m.regions new.regions := by
    obtain ⟨hdefects, hplaces⟩ := hall
    rw [hplaces] at hnew ⊢
    rw [← hregions]
    rw [htraced.spans, List.map_map] at hnew ⊢
    refine List.forall₂_map_left_iff.mpr (List.forall₂_map_right_iff.mpr
      (List.forall₂_same.mpr fun s hs => ?_))
    obtain ⟨a, b, c, d, hat, htries, hhandlers⟩ := hat s hs
    obtain ⟨index, hindex⟩ := List.mem_iff_getElem?.mp hs
    have hnone : Reconcile.regionIssues g index (s.within g.labels) = [] := by
      refine List.flatMap_eq_nil_iff.mp hdefects (s.within g.labels, index) ?_
      rw [List.mk_mem_zipIdx_iff_getElem?, htraced.spans, List.getElem?_map, hindex]
      rfl
    exact (htraced.regionKept_moved h₀ hcode hwritten hs hat htries hhandlers hnone rfl
      (hnew _ (List.mem_map_of_mem hs)) moved).of_copy
  by_cases hactive : .exceptionReconciler ∈ settings.activeKinds
  · exact hwhole (hmoved hactive)
  rcases hwritten.regions with hsame | hall
  · rw [hsame, htraced.spans, List.map_map] at hnew ⊢
    rw [← hregions]
    refine List.forall₂_map_left_iff.mpr (List.forall₂_map_right_iff.mpr
      (List.forall₂_same.mpr fun s hs => ?_))
    obtain ⟨a, b, c, d, hat, -, -⟩ := hat s hs
    obtain ⟨a', b', c', d', hat'⟩ := hnew s.region (List.mem_map_of_mem hs)
    exact (htraced.regionKept_same h₀ hcode hwritten hat hat' hactive).of_copy
  · exact hwhole hall

theorem knownDispatch_protects : List.Forall₂ (RegionKept knownDispatch.code
      (knownDispatch.normalize {}).body.code
      (.exceptionReconciler ∈ ({} : Settings).activeKinds))
    knownDispatch.regions (knownDispatch.normalize {}).body.regions :=
  normalize_protects knownDispatch {} (by decide) (by decide +kernel)

end Method

end Untangle
