/-
  Untangle.Proofs.Stage.Settled

  A graph that has just been built has nothing to reconcile (`Reconcile.changeCount_built`). The
  blocks of a range hold exactly the instructions of the range, so they give back its boundaries,
  and every exit names the first instruction of a block.
-/
import Untangle.Proofs.Graph.Covered
import Untangle.Proofs.Stage.Reconcile

namespace Untangle

namespace Graph

variable {g : Graph} {m : Method} {terminators : List Value}

/-- A place is in the range that blocks cover just when its instruction is in their run. -/
theorem Covers.inside_run {a b : Nat} {labels : List Int} (hcovers : g.Covers m.code a b labels)
    (h : g.Formed) (hcode : g.code = m.code) {before run after : Outline}
    (houtline : g.outline = before ++ run ++ after) (hlabels : Outline.labels run = labels)
    {q : Nat} (hq : q < m.code.length) :
    (a ≤ q ∧ q ≤ b) ↔ (Outline.code before).length ≤ q
      ∧ q < (Outline.code before).length + (Outline.code run).length := by
  have hnodup : (m.code.map (·.uid)).Nodup := hcode ▸ h.uids_nodup
  have hsplit : m.code = Outline.code before ++ Outline.code run ++ Outline.code after := by
    rw [← hcode, ← Outline.code_outline, houtline, Outline.code_append, Outline.code_append]
  have hapart : (Outline.labels before ++ labels ++ Outline.labels after).Nodup := by
    have hnodup := h.labels_nodup
    rw [← Outline.labels_outline, houtline] at hnodup
    rw [← hlabels]
    simpa only [Outline.labels, List.map_append] using hnodup
  rw [List.nodup_append, List.nodup_append] at hapart
  obtain ⟨⟨-, -, hfront⟩, -, hback⟩ := hapart
  have hget : m.code[q]? = some m.code[q] := List.getElem?_eq_getElem hq
  have hpart {part : Outline} (hsub : part ⊆ g.outline) (hin : m.code[q] ∈ Outline.code part) :
      ∃ e ∈ part, (e.1 ∈ labels ↔ a ≤ q ∧ q ≤ b) := by
    obtain ⟨e, he, hins⟩ := List.mem_flatMap.mp hin
    exact ⟨e, he, hcovers.inside e (hsub he) _ hins q
      ((place?_eq_some hnodup).mpr ⟨hq, labelAt_eq hget⟩)⟩
  rcases getElem?_append_cases ((congrArg (·[q]?) hsplit).symm.trans hget) with
    ⟨hlt, hin⟩ | ⟨hle, hlt, hin⟩ | ⟨hle, hin⟩
  · obtain ⟨e, he, hiff⟩ := hpart (by rw [houtline]; simp) hin
    have hnot : e.1 ∉ labels := fun hl => hfront _ (List.mem_map_of_mem he) _ hl rfl
    rw [← hiff]
    exact ⟨fun hl => absurd hl hnot, fun hrange => by omega⟩
  · obtain ⟨e, he, hiff⟩ := hpart (by rw [houtline]; simp) hin
    rw [← hiff]
    exact ⟨fun _ => ⟨hle, hlt⟩, fun _ => hlabels ▸ List.mem_map_of_mem he⟩
  · obtain ⟨e, he, hiff⟩ := hpart (by rw [houtline]; simp) hin
    have hnot : e.1 ∉ labels := fun hl =>
      hback _ (List.mem_append_right _ hl) _ (List.mem_map_of_mem he) rfl
    rw [← hiff]
    exact ⟨fun hl => absurd hl hnot, fun hrange => by omega⟩

/-- The blocks that cover the places from one to another give back the instructions there. -/
theorem Covers.bounds {a b : Nat} {labels : List Int} (hcovers : g.Covers m.code a b labels)
    (h : g.Formed) (hcode : g.code = m.code) (hab : a ≤ b) (hb : b < m.code.length) :
    g.spanBounds? labels = some (labelAt m.code a, labelAt m.code b) := by
  obtain ⟨before, run, after, houtline, hlabels, hrun⟩ := Reconcile.exists_run h hcovers.run
  have hsplit : m.code = Outline.code before ++ Outline.code run ++ Outline.code after := by
    rw [← hcode, ← Outline.code_outline, houtline, Outline.code_append, Outline.code_append]
  have hinside {q : Nat} (hq : q < m.code.length) :=
    hcovers.inside_run h hcode houtline hlabels hq
  have hlength : m.code.length = (Outline.code before).length + (Outline.code run).length
      + (Outline.code after).length := by rw [hsplit, List.length_append, List.length_append]
  have hfirst := (hinside (hab.trans_lt hb)).mp ⟨Nat.le_refl a, hab⟩
  have hlast := (hinside hb).mp ⟨hab, Nat.le_refl b⟩
  have hstart := (hinside (q := (Outline.code before).length) (by omega)).mpr (by omega)
  have hend := (hinside (q := (Outline.code before).length + (Outline.code run).length - 1)
    (by omega)).mpr (by omega)
  -- So the run stands at the places of the range.
  have hget {i : Nat} (hi : i < (Outline.code run).length) :
      (Outline.code run)[i]? = m.code[a + i]? := by
    rw [show a = (Outline.code before).length by omega, hsplit, List.append_assoc,
      List.getElem?_append_right (by omega), List.getElem?_append_left (by omega),
      Nat.add_sub_cancel_left]
  have hhead := hget (i := 0) (by omega)
  have hfinal := hget (i := (Outline.code run).length - 1) (by omega)
  rw [show a + ((Outline.code run).length - 1) = b by omega, ← List.getLast?_eq_getElem?,
    List.getElem?_eq_getElem hb] at hfinal
  rw [Nat.add_zero, ← List.head?_eq_getElem?, List.getElem?_eq_getElem (hab.trans_lt hb)] at hhead
  unfold spanBounds?
  dsimp only
  rw [hrun, hhead, hfinal, labelAt_eq (List.getElem?_eq_getElem hb),
    labelAt_eq (List.getElem?_eq_getElem (hab.trans_lt hb))]

end Graph

namespace Reconcile

open Graph

variable {g : Graph} {m : Method} {terminators : List Value}

/-- Boundaries that are given back need not move. -/
theorem moved?_eq_none {s : Span} {tries handlers : Int × Int}
    (htries : g.spanBounds? s.tryBlocks = some tries)
    (hhandlers : g.spanBounds? s.handlerBlocks = some handlers)
    (htryStart : s.region.tryStart.wholeNumber? = some tries.1)
    (htryEnd : s.region.tryEnd.wholeNumber? = some tries.2)
    (hhandlerStart : s.region.handlerStart.wholeNumber? = some handlers.1)
    (hhandlerEnd : s.region.handlerEnd.wholeNumber? = some handlers.2) : moved? g s = none := by
  have hbounds : boundsOf g s = (some tries, some handlers) := by
    rw [boundsOf, htries, hhandlers]
  have hitems {vs ws : List Value} (h : List.Forall₂ (fun v w => (v == w) = true) vs ws) :
      Value.equalItems vs ws = true := by
    induction h with
    | nil => rfl
    | cons hfirst _ ih =>
      rw [Value.equalItems]
      exact Bool.and_eq_true_iff.mpr ⟨hfirst, ih⟩
  have hsame : (Value.tuple (withBounds s.region tries handlers).boundaries
      == .tuple s.region.boundaries) = true := by
    show Value.equal (.tuple _) (.tuple _) = true
    rw [Value.equal]
    exact hitems (.cons (same_of_wholeNumber? htryStart) (.cons (same_of_wholeNumber? htryEnd)
      (.cons (same_of_wholeNumber? hhandlerStart) (.cons (same_of_wholeNumber? hhandlerEnd) .nil))))
  unfold moved?
  rw [hbounds]
  dsimp only
  rw [if_pos hsame]

/-- Regions of a graph that has just been built stay as they are. -/
theorem moved?_built (h : build m terminators = .ok g) (hnodup : (m.code.map (·.uid)).Nodup) :
    ∀ s ∈ g.spans, moved? g s = none := by
  intro s hs
  obtain ⟨index, hindex⟩ := List.mem_iff_getElem?.mp hs
  have hr : m.regions[index]? = some s.region := by
    rw [← build_regions h, List.getElem?_map, hindex]
    rfl
  obtain ⟨s', a, b, c, d, hs', -, hat, htries, hhandlers⟩ := build_covers h hnodup hr
  rw [hindex] at hs'
  cases hs'
  have hformed := (build_formed h hnodup).1
  have hcode := build_code h
  have hnamed {v : Value} {p : Nat} (hp : Method.placeOf? m.code v = some p) :
      p < m.code.length ∧ v.wholeNumber? = some (labelAt m.code p) := by
    obtain ⟨uid, huid, hplace⟩ := wholeNumber?_of_placeOf? hp
    obtain ⟨hlt, hlabel⟩ := (place?_eq_some hnodup).mp hplace
    exact ⟨hlt, hlabel ▸ huid⟩
  exact moved?_eq_none
    (htries.bounds hformed hcode hat.tryOrder (hnamed hat.tryEnd).1)
    (hhandlers.bounds hformed hcode hat.handlerOrder (hnamed hat.handlerEnd).1)
    (hnamed hat.tryStart).2 (hnamed hat.tryEnd).2
    (hnamed hat.handlerStart).2 (hnamed hat.handlerEnd).2

/-- Exits of a graph whose blocks start with their labels stay as they are. -/
theorem exitChanges_of_firstLabels (h : g.Formed) (hfirst : g.FirstLabels) {ins : Instruction}
    (hins : ins ∈ g.code) : exitChanges g ins = false := by
  unfold exitChanges
  cases hfate : exitFate g ins with
  | none => rfl
  | lost => rfl
  | kept target isNew tooFar =>
    obtain ⟨record, hrecord, htarget, hnew⟩ := exitFate_kept hfate
    obtain ⟨-, hnone | ⟨l, hl, hnumber⟩⟩ := exit_target h hins hrecord
    · rw [Operand.eq_of_isNone hnone] at htarget
      cases htarget
    · -- Control that is sent to a block gets to the instruction that labels it.
      obtain ⟨place, hplace⟩ := exists_place hl
      obtain ⟨hsuffix, c, rest, rfl⟩ := Outline.from?_eq_some hplace
      obtain ⟨first, others, hc, hlabel⟩ := hfirst _ (hsuffix.subset List.mem_cons_self)
      have hlive : g.liveTarget? l = some l := by
        rw [liveTarget?_of_label hl hplace, Outline.code_cons, show c = first :: others from hc]
        exact congrArg some hlabel
      rw [hnumber, Option.bind_some, hlive] at htarget
      cases htarget
      rw [hnew, hnumber]
      exact bne_self_eq_false _

/-- A graph that has just been built has nothing to reconcile. -/
theorem changeCount_built (h : build m terminators = .ok g)
    (hnodup : (m.code.map (·.uid)).Nodup) : changeCount g = 0 := by
  have hformed := (build_formed h hnodup).1
  have hstay := moved?_built h hnodup
  have hsame : regionsMoved g = g := by
    have hspans : (g.spans.map fun s => (moved? g s).getD s) = g.spans := by
      refine (List.map_congr_left fun s hs => ?_).trans (List.map_id _)
      rw [hstay s hs]
      rfl
    unfold regionsMoved
    rw [hspans]
  unfold changeCount
  rw [hsame, List.countP_eq_zero.mpr, List.countP_eq_zero.mpr]
  · intro ins hins
    rw [exitChanges_of_firstLabels hformed (build_firstLabels h) hins]
    decide
  · intro s hs
    rw [hstay s hs]
    decide

end Reconcile

end Untangle
