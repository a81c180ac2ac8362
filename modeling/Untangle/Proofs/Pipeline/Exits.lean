/-
  Untangle.Proofs.Pipeline.Exits

  Exits from regions (`Graph.Sound.exit_near`). An exit whose target stood no later than directly
  after the handler of its region is not led further away, because the blocks in front of the
  target come from those up to the end of the handler. So the last stage never notes that an exit
  lies too far.
-/
import Untangle.Proofs.Pipeline.Regions

namespace Untangle

namespace Method

variable {code : List Instruction}

/-- The first instruction behind some others stands at their number. -/
theorem place?_of_split (hnodup : (code.map (·.uid)).Nodup) {before rest : List Instruction}
    {ins : Instruction} (h : code = before ++ ins :: rest) :
    place? code ins.uid = some before.length := by
  refine place?_of_getElem? hnodup ?_
  rw [h, List.map_append, List.getElem?_append_right (by simp)]
  simp

/-- Instructions stand at rising places. -/
theorem pairwise_place (hnodup : (code.map (·.uid)).Nodup) :
    (code.map (·.uid)).Pairwise fun u v =>
      ∀ p q, place? code u = some p → place? code v = some q → p < q := by
  refine List.pairwise_iff_getElem.mpr fun i j hi hj hij p q hp hq => ?_
  have hsame {k r : Nat} (hk : k < (code.map (·.uid)).length)
      (hr : place? code (code.map (·.uid))[k] = some r) : r = k := by
    have hplace := place?_of_getElem? hnodup (List.getElem?_eq_getElem hk)
    exact Option.some.inj (hr.symm.trans hplace)
  rw [hsame hi hp, hsame hj hq]
  exact hij

end Method

namespace Graph

open Method (place? placeOf?)

/-! ## The graph that is built -/

section Built

variable {g : Graph}

/-- Where blocks start with their labels, the labels stand in stream order. -/
theorem FirstLabels.sublist (hfirst : g.FirstLabels) :
    g.labels.Sublist (g.code.map (·.uid)) := by
  unfold FirstLabels at hfirst
  rw [← Outline.labels_outline, ← Outline.code_outline]
  generalize g.outline = o at hfirst
  induction o with
  | nil => exact List.Sublist.slnil
  | cons e o ih =>
    obtain ⟨first, rest, hcode, hlabel⟩ := hfirst e List.mem_cons_self
    rw [Outline.code_cons, hcode, List.cons_append, List.map_cons, hlabel, List.map_append]
    exact ((ih fun e' he' => hfirst e' (List.mem_cons_of_mem _ he')).trans
      (List.sublist_append_right _ _)).cons_cons e.1

/-- A block that starts with its label is covered just when that is. -/
theorem Covers.label {a b : Nat} {labels : List Int} (hcovers : g.Covers g.code a b labels)
    (h : g.Formed) (hfirst : g.FirstLabels) {l : Int} (hl : l ∈ g.labels) :
    ∃ p, place? g.code l = some p ∧ (l ∈ labels ↔ a ≤ p ∧ p ≤ b) := by
  rw [← Outline.labels_outline] at hl
  obtain ⟨e, he, rfl⟩ := List.mem_map.mp hl
  obtain ⟨first, rest, hcode, hlabel⟩ := hfirst e he
  have hin : first ∈ e.2 := by rw [hcode]; exact List.mem_cons_self
  obtain ⟨p, hp⟩ := List.mem_iff_getElem?.mp (List.mem_map_of_mem (f := (·.uid))
    (mem_code_of_mem he hin))
  have hplace := Method.place?_of_getElem? h.uids_nodup hp
  exact ⟨p, hlabel ▸ hplace, hcovers.inside e he first hin p hplace⟩

/-- What is recorded of an exit when a graph is built. -/
theorem build_exit {m : Method} {terminators : List Value} (hbuild : build m terminators = .ok g)
    (hnodup : (m.code.map (·.uid)).Nodup) {record : ExitRecord} (hrecord : record ∈ g.exits)
    {ins : Instruction} (hins : ins ∈ g.code) (huid : ins.uid = record.uid) :
    ∃ (s : Span) (a b c d t : Nat), g.spans[record.region]? = some s
      ∧ RangeOf g.code s.region a b c d ∧ g.Covers g.code c d s.handlerBlocks
      ∧ placeOf? g.code ins.operand.toValue = some t ∧ (record.bounded = true → t ≤ d + 1) := by
  obtain ⟨ranges, exits, haccepts, rfl⟩ := build_eq_ok.mp hbuild
  have hcode : (cut m terminators ranges exits).connected.code = m.code := build_code hbuild
  obtain ⟨ins', hins', p, hok⟩ := haccepts.exists_exit hrecord
  obtain ⟨-, hsame, t, range, htarget, hrange, hbounded⟩ := exitRecord_eq_some hok
  have hexit : ins = ins' :=
    List.inj_on_of_nodup_map hnodup (hcode ▸ hins) hins' (huid.trans hsame)
  obtain ⟨⟨r, i⟩, hr, hfits⟩ := forall₂_getElem? haccepts.fits.flip hrange
  rw [List.getElem?_zipIdx, Option.map_eq_some_iff] at hr
  obtain ⟨r', hr', heq⟩ := hr
  cases heq
  obtain ⟨s, a, b, c, d, hs, rfl, hat, -, hcovers⟩ := build_covers hbuild hnodup hr'
  obtain ⟨a', b', c', d', rfl, hat'⟩ := regionRange_eq_ok.mp hfits
  have hd : d = d' := Option.some.inj (hat.handlerEnd.symm.trans hat'.handlerEnd)
  refine ⟨s, a, b, c, d, t, hs, hcode ▸ hat, hcode ▸ hcovers, ?_, fun hnear => ?_⟩
  · obtain ⟨u, hu, ht⟩ := Option.bind_eq_some_iff.mp htarget
    rw [hcode, hexit, placeOf?, wholeNumber?_of_asInt? hu]
    exact ht
  · rw [hbounded] at hnear
    have := of_decide_eq_true hnear
    dsimp only at this
    omega

end Built

/-! ## What is left of it -/

namespace Traced

variable {g₀ g : Graph} {T : List Stretch} {f : Instruction → List Instruction}

/-- In front of a label that stood no later than directly after a handler there are only blocks
    up to the end of the handler. -/
theorem front_of_near (h : Traced g₀ g T f) (h₀ : g₀.Formed) (hfirst : g₀.FirstLabels)
    {c d : Nat} {handlers : List Int} (hcovers : g₀.Covers g₀.code c d handlers)
    {front run back : Outline} (hsplit : g.outline = front ++ run ++ back)
    (hrun : Outline.labels run = handlers.filter g.labels.contains) (hsome : run ≠ [])
    {l : Int} {t : Nat} (ht : place? g₀.code l = some t) (hnear : t ≤ d + 1)
    {before rest : Outline} {e : Int × List Instruction}
    (hat : g.outline = before ++ e :: rest) (hl : e.1 = l) :
    (Outline.code before).length ≤ (Outline.code (front ++ run)).length := by
  rcases List.append_eq_append_iff.mp (hsplit.symm.trans hat) with
    ⟨between, hbefore, -⟩ | ⟨more, hmore, -⟩
  · cases between with
    | nil => rw [hbefore, List.append_nil]
    | cons x between =>
      -- A block between the handler and the label would have stood in the handler.
      exfalso
      obtain ⟨start, others, rfl⟩ := List.exists_cons_of_ne_nil hsome
      have houtline : g.outline
          = front ++ start :: (others ++ x :: (between ++ e :: rest)) := by
        rw [hat, hbefore]
        simp
      have hlabels : g.labels = Outline.labels front ++ start.1 :: (Outline.labels others
          ++ x.1 :: (Outline.labels between ++ e.1 :: Outline.labels rest)) := by
        rw [← Outline.labels_outline, houtline]
        simp [Outline.labels]
      have hrises := (Method.pairwise_place h₀.uids_nodup).sublist
        (h.labels_sublist.trans hfirst.sublist)
      rw [hlabels, List.pairwise_append, List.pairwise_cons, List.pairwise_append,
        List.pairwise_cons] at hrises
      obtain ⟨-, ⟨hstart, -, ⟨hx, -⟩, -⟩, -⟩ := hrises
      have hmem {u : Int} (hu : u ∈ g.labels) := hcovers.label h₀ hfirst
        (h.labels_sublist.subset hu)
      obtain ⟨q, hq, hcovered⟩ := hmem (u := x.1) (by rw [hlabels]; simp)
      obtain ⟨p, hp, hhandler⟩ := hmem (u := start.1) (by rw [hlabels]; simp)
      have hpq : p < q := hstart x.1 (by simp) p q hp hq
      have hqt : q < t := hx e.1 (by simp) q t hq (hl ▸ ht)
      have hin : start.1 ∈ handlers := by
        have : start.1 ∈ Outline.labels (start :: others) := List.mem_cons_self
        rw [hrun] at this
        exact List.mem_of_mem_filter this
      have hxin : x.1 ∈ handlers := hcovered.mpr ⟨by have := hhandler.mp hin; omega, by omega⟩
      have hleft : x.1 ∈ Outline.labels (start :: others) := by
        rw [hrun]
        refine List.mem_filter.mpr ⟨hxin, List.contains_iff_mem.mpr ?_⟩
        rw [hlabels]
        simp
      have hnodup := h.formed.labels_nodup
      rw [hlabels, List.nodup_append] at hnodup
      have hapart := hnodup.2.1
      rw [← List.cons_append, List.nodup_append] at hapart
      exact hapart.2.2 x.1 hleft x.1 List.mem_cons_self rfl
  · rw [hmore, Outline.code_append, List.length_append]
    omega

/-- A stretch starts with a block of a run just when it is left there. -/
theorem image_mem_run (h : Traced g₀ g T f) {labels : List Int} {front run back : Outline}
    (hsplit : g.outline = front ++ run ++ back)
    (hrun : Outline.labels run = labels.filter g.labels.contains) {r : Stretch} (hr : r ∈ T) :
    r.label ∈ labels ↔ r.image f ∈ run := by
  have hsub : ∀ e ∈ run, e ∈ g.outline := fun e he => by rw [hsplit]; simp [he]
  have himage : r.image f ∈ g.outline := h.outline ▸ List.mem_map_of_mem hr
  have hleft : r.label ∈ g.labels := h.labels ▸ List.mem_map_of_mem hr
  constructor
  · intro hlabel
    have hmem : r.label ∈ Outline.labels run := by
      rw [hrun]
      exact List.mem_filter.mpr ⟨hlabel, List.contains_iff_mem.mpr hleft⟩
    obtain ⟨e, he, hsame⟩ := List.mem_map.mp hmem
    rwa [← List.inj_on_of_nodup_map h.formed.outline_nodup (hsub e he) himage hsame]
  · intro hmem
    have hlabel : r.label ∈ Outline.labels run := List.mem_map.mpr ⟨r.image f, hmem, rfl⟩
    rw [hrun] at hlabel
    exact List.mem_of_mem_filter hlabel

/-- An instruction of the first graph that is left in the blocks of a range was in the range. -/
theorem between_of_mem_run (h : Traced g₀ g T f) (h₀ : g₀.Formed) {a b : Nat} {labels : List Int}
    (hcovers : g₀.Covers g₀.code a b labels) {range : Value × Value}
    (ha : placeOf? g₀.code range.1 = some a) (hb : placeOf? g₀.code range.2 = some b)
    (htogether : ∀ r ∈ T, ∀ e ∈ r.blocks, r.label ∈ labels ↔ e.1 ∈ labels)
    {front run back : Outline} (hsplit : g.outline = front ++ run ++ back)
    (hrun : Outline.labels run = labels.filter g.labels.contains) {j : Instruction}
    (hj : j ∈ g.code) (hknown : j.uid ∈ g₀.code.map (·.uid)) :
    Method.Between g₀.code range j.uid ↔ j ∈ Outline.code run := by
  obtain ⟨r, hr, ins, hins, hin, hrewritten⟩ := h.exists_source hj
  have huid : j.uid = ins.uid := by
    rcases hrewritten.uid_cases hin with hsame | ⟨hfresh, -⟩
    · exact hsame
    · obtain ⟨i, hi, hsame⟩ := List.mem_map.mp hknown
      have := h₀.uids_fresh i hi
      omega
  have himage : j ∈ (r.image f).2 := List.mem_flatMap.mpr ⟨ins, hins, hin⟩
  rw [huid, h.between_source h₀ rfl hcovers ha hb htogether hr hins,
    h.image_mem_run hsplit hrun hr]
  constructor
  · exact fun hmem => List.mem_flatMap.mpr ⟨_, hmem, himage⟩
  · intro hmem
    obtain ⟨e, he, hin'⟩ := List.mem_flatMap.mp hmem
    have hshared : e = r.image f := h.formed.eq_of_shared (by rw [hsplit]; simp [he])
      (h.outline ▸ List.mem_map_of_mem hr) hin' himage rfl
    rwa [← hshared]

/-- The last instruction of a run of blocks stands at the end of the run. -/
theorem place?_run_last (h : g.Formed) {front run back : Outline}
    (hsplit : g.outline = front ++ run ++ back) {init : List Instruction} {z : Instruction}
    (hz : Outline.code run = init ++ [z]) :
    place? g.code z.uid = some ((Outline.code front).length + init.length) := by
  have hcut : g.code = (Outline.code front ++ init) ++ z :: Outline.code back := by
    rw [← Outline.code_outline, hsplit, Outline.code_append, Outline.code_append, hz]
    simp
  rw [← List.length_append]
  exact Method.place?_of_split h.uids_nodup hcut

/-- The last instruction that is left of a run of blocks is one of the first graph. -/
theorem run_last_known (h : Traced g₀ g T f) {front run back : Outline}
    (hsplit : g.outline = front ++ run ++ back) {init : List Instruction} {z : Instruction}
    (hz : Outline.code run = init ++ [z]) : z.uid ∈ g₀.code.map (·.uid) := by
  obtain ⟨stretches, _, rfl, hleft, -⟩ := List.map_eq_append_iff.mp (h.outline.symm.trans hsplit)
  obtain ⟨_, stretches, rfl, -, rfl⟩ := List.map_eq_append_iff.mp hleft
  refine h.last_known (fun r (hr : r ∈ stretches) => by simp [hr]) ?_
  have himages : (stretches.flatMap Stretch.code).flatMap f
      = Outline.code (stretches.map (Stretch.image f)) := by
    rw [List.flatMap_assoc, Outline.code, List.flatMap_map]
    rfl
  rw [himages, hz, List.map_append, List.map_singleton, List.getLast?_concat]

/-- The handler of a region that keeps its boundaries ends with what is left of its blocks. -/
theorem unmoved_handler_end (h : Traced g₀ g T f) (h₀ : g₀.Formed) {s : Span} (hs : s ∈ g₀.spans)
    {a b c d : Nat} (hat : RangeOf g₀.code s.region a b c d)
    (hcovers : g₀.Covers g₀.code c d s.handlerBlocks) {front run back : Outline}
    (hsplit : g.outline = front ++ run ++ back)
    (hrun : Outline.labels run = s.handlerBlocks.filter g.labels.contains) {last : Nat}
    (hlast : placeOf? g.code s.region.handlerEnd = some last) :
    (Outline.code (front ++ run)).length ≤ last + 1 := by
  have hnodup := h.formed.uids_nodup
  have hinside {j : Instruction} (hj : j ∈ g.code) (hknown : j.uid ∈ g₀.code.map (·.uid)) :
      Method.Between g₀.code (s.region.handlerStart, s.region.handlerEnd) j.uid
        ↔ j ∈ Outline.code run :=
    h.between_of_mem_run h₀ hcovers hat.handlerStart hat.handlerEnd
      (fun r hr e he => (h.regions r hr e he s hs).2) hsplit hrun hj hknown
  -- The instruction that the handler ended with is left, so it is in the run.
  obtain ⟨u, hu, hplace⟩ := Option.bind_eq_some_iff.mp hlast
  have hend : place? g₀.code u = some d := by
    have hhandlerEnd := hat.handlerEnd
    rwa [placeOf?, hu, Option.bind_some] at hhandlerEnd
  have hknown : u ∈ g₀.code.map (·.uid) :=
    List.mem_of_getElem? (Method.getElem?_of_place? h₀.uids_nodup hend)
  obtain ⟨j, hj, rfl⟩ : ∃ j ∈ g.code, j.uid = u :=
    List.mem_map.mp (List.mem_of_getElem? (Method.getElem?_of_place? hnodup hplace))
  have hin : j ∈ Outline.code run := (hinside hj hknown).mp
    ⟨c, d, d, hat.handlerStart, hend, hat.handlerEnd, hat.handlerOrder, Nat.le_refl d⟩
  -- So the run has a last instruction, which was no later than that.
  obtain ⟨init, z, hinit⟩ := (List.eq_nil_or_concat' (Outline.code run)).resolve_left
    (List.ne_nil_of_mem hin)
  have hzrun : z ∈ Outline.code run := by rw [hinit]; simp
  have hz : z ∈ g.code := by
    rw [← Outline.code_outline, hsplit, Outline.code_append, Outline.code_append]
    simp [hzrun]
  obtain ⟨x, y, w, -, hy, hw, -, hyw⟩ :=
    (hinside hz (h.run_last_known hsplit hinit)).mpr hzrun
  have hyd : y ≤ d := by
    obtain rfl : w = d := Option.some.inj (hw.symm.trans hat.handlerEnd)
    exact hyw
  have hle := (Method.place_le_iff h₀.uids_nodup hnodup (h.order_known h₀) hy hend
    (place?_run_last h.formed hsplit hinit) hplace).mpr hyd
  rw [Outline.code_append, List.length_append, hinit, List.length_append, List.length_singleton]
  omega

/-- The handler of a region, moved or not, ends with what is left of its blocks. -/
theorem handler_end (h : Traced g₀ g T f) (h₀ : g₀.Formed) {s : Span} (hs : s ∈ g₀.spans)
    {a b c d : Nat} (hat : RangeOf g₀.code s.region a b c d)
    (hcovers : g₀.Covers g₀.code c d s.handlerBlocks) {front run back : Outline}
    (hsplit : g.outline = front ++ run ++ back)
    (hrun : Outline.labels run = s.handlerBlocks.filter g.labels.contains)
    (hcode : ((s.within g.labels).handlerBlocks.filterMap g.block?).flatMap (·.code)
      = Outline.code run) {last : Nat}
    (hlast : placeOf? g.code ((Reconcile.moved? g (s.within g.labels)).getD
      (s.within g.labels)).region.handlerEnd = some last) :
    (Outline.code (front ++ run)).length ≤ last + 1 := by
  by_cases hboth : (g.spanBounds? (s.within g.labels).tryBlocks).isSome
      ∧ (g.spanBounds? (s.within g.labels).handlerBlocks).isSome
  · obtain ⟨htries, hhandlers⟩ := hboth
    obtain ⟨tries, htries⟩ := Option.isSome_iff_exists.mp htries
    obtain ⟨handlers, hhandlers⟩ := Option.isSome_iff_exists.mp hhandlers
    obtain ⟨-, -, hend⟩ := Reconcile.moved_boundaries htries hhandlers rfl
    unfold spanBounds? at hhandlers
    rw [hcode] at hhandlers
    dsimp only at hhandlers
    split at hhandlers
    · rename_i first z hfirst hz
      cases hhandlers
      obtain ⟨init, hinit⟩ := List.getLast?_eq_some_iff.mp hz
      rw [placeOf?, hend, Option.bind_some, place?_run_last h.formed hsplit hinit] at hlast
      cases hlast
      rw [Outline.code_append, List.length_append, hinit, List.length_append]
      exact Nat.le_refl _
    · cases hhandlers
  · rw [Reconcile.moved?_of_lost hboth] at hlast
    exact h.unmoved_handler_end h₀ hs hat hcovers hsplit hrun hlast

/-- A label that stood no later than directly after the handler of a region leads no further,
    once the region has been moved. -/
theorem target_near (h : Traced g₀ g T f) (h₀ : g₀.Formed) (hfirst : g₀.FirstLabels) {s : Span}
    (hs : s ∈ g₀.spans) {a b c d : Nat} (hat : RangeOf g₀.code s.region a b c d)
    (hcovers : g₀.Covers g₀.code c d s.handlerBlocks) {l : Int} (hl : l ∈ g.labels) {t : Nat}
    (ht : place? g₀.code l = some t) (hnear : t ≤ d + 1) {target : Int}
    (htarget : g.liveTarget? l = some target) {place last : Nat}
    (hplace : place? g.code target = some place)
    (hlast : placeOf? g.code ((Reconcile.moved? g (s.within g.labels)).getD
      (s.within g.labels)).region.handlerEnd = some last) : place ≤ last + 1 := by
  obtain ⟨front, run, back, hsplit, hrun, hcode⟩ :=
    Reconcile.exists_run h.formed (h.run_left h₀ hcovers.run)
  have hsome : run ≠ [] := by
    have hmem : s.within g.labels ∈ g.spans := h.spans ▸ List.mem_map_of_mem hs
    obtain ⟨first, hhead, -⟩ := h.formed.starts _ hmem
    rintro rfl
    rw [show (s.within g.labels).handlerBlocks = [] from hrun.symm] at hhead
    cases hhead
  obtain ⟨behind, hbehind⟩ := exists_place hl
  obtain ⟨⟨before, hat'⟩, code, rest, rfl⟩ := Outline.from?_eq_some hbehind
  have hfront := h.front_of_near h₀ hfirst hcovers hsplit hrun hsome ht hnear hat'.symm rfl
  have hend := h.handler_end h₀ hs hat hcovers hsplit hrun hcode hlast
  -- The label leads to the first instruction behind it.
  rw [liveTarget?_of_label hl hbehind] at htarget
  obtain ⟨ins, hhead, rfl⟩ := Option.map_eq_some_iff.mp htarget
  obtain ⟨more, hmore⟩ := List.head?_eq_some_iff.mp hhead
  have hcut : g.code = Outline.code before ++ ins :: more := by
    rw [← Outline.code_outline, ← hat', Outline.code_append, hmore]
  have hsame := Method.place?_of_split h.formed.uids_nodup hcut
  obtain rfl : place = (Outline.code before).length := Option.some.inj (hplace.symm.trans hsame)
  omega

end Traced

/-- The last stage never notes that an exit lies too far from its region. -/
theorem Sound.exit_near {P : Platform} {m : Method} {terminators : List Value} {g₀ g : Graph}
    (h : g₀.Sound P g) (hbuild : build m terminators = .ok g₀)
    (hnodup : (m.code.map (·.uid)).Nodup) {ins : Instruction} (hins : ins ∈ g.code) :
    ∀ issue ∈ Reconcile.exitIssues (Reconcile.regionsMoved g) ins,
      issue.kind ≠ .exitOutOfBounds := by
  have hformed := h.formed
  obtain ⟨-, hkept, T, f, htraced⟩ := h
  intro issue hissue
  unfold Reconcile.exitIssues at hissue
  split at hissue
  · rw [List.mem_singleton.mp hissue]
    exact nofun
  · rename_i target isNew record hfate hrecord
    exfalso
    obtain ⟨hleave, hoperand⟩ := Reconcile.exit_target hformed hins hrecord
    have hfrom : ins ∈ g₀.code := (hkept.drawn ins hins).resolve_right fun hmade => by
      rcases hmade with hop | hop | hop <;> rw [hleave] at hop <;> cases hop
    have huid : record.uid = ins.uid := by
      have hfound := List.find?_some hrecord
      exact eq_of_beq hfound
    obtain ⟨s, a, b, c, d, t, hs, hat, hcovers, ht, hnear⟩ := build_exit hbuild hnodup
      (hkept.exits (List.mem_of_find?_eq_some hrecord)) hfrom huid.symm
    have hspan : (Reconcile.regionsMoved g).spans[record.region]?
        = some ((Reconcile.moved? g (s.within g.labels)).getD (s.within g.labels)) := by
      show (g.spans.map _)[record.region]? = _
      rw [htraced.spans, List.map_map, List.getElem?_map, hs]
      rfl
    unfold Reconcile.exitFate at hfate
    rw [hrecord] at hfate
    dsimp only at hfate
    rw [hspan, Option.bind_some] at hfate
    split at hfate
    · cases hfate
    rename_i target' htarget
    injection hfate with _ _ hfar
    split at hfar
    · rename_i place last hplace hlast
      rw [Bool.and_eq_true, decide_eq_true_eq] at hfar
      obtain hnone | ⟨l, hl, hnumber⟩ := hoperand
      · rw [Operand.eq_of_isNone hnone] at htarget
        cases htarget
      · rw [hnumber, Option.bind_some] at htarget
        rw [placeOf?, hnumber, Option.bind_some] at ht
        have hle := htraced.target_near (build_formed hbuild hnodup).1 (build_firstLabels hbuild)
          (List.mem_of_getElem? hs) hat hcovers hl ht (hnear hfar.1) htarget hplace hlast
        omega
    · cases hfar
  · cases hissue

end Graph

end Untangle
