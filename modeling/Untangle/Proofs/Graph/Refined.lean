/-
  Untangle.Proofs.Graph.Refined

  What it means that one graph shows what another one does: run from the entry, and run
  from the start of each handler.
-/
import Untangle.Proofs.Graph.Formed

namespace Untangle

namespace Graph

/-- The blocks from the start of the handler of a region on, given by the number of the
    region. -/
def handlerPlace? (g : Graph) (index : Nat) : Option Outline :=
  (g.spans[index]?).bind fun s => s.handlerBlocks.head?.bind g.outline.from?

/-- The second graph shows what the first one shows, wherever control comes in and whatever
    the stack and the locals are there. -/
structure Refined (P : Platform) (g g' : Graph) : Prop where
  entry : ∀ σ, Process.Refines (g.outline.process P) g.outline (g'.outline.process P)
    g'.outline σ
  handler : ∀ index place, g.handlerPlace? index = some place →
    ∃ place', g'.handlerPlace? index = some place'
      ∧ ∀ σ, Process.Refines (g.outline.process P) place (g'.outline.process P) place' σ

namespace Refined

variable {P : Platform} {g g' g'' : Graph}

/-- Only the outline and the heads of the handlers matter. -/
theorem of_eq (houtline : g'.outline = g.outline)
    (hheads : g'.spans.map (·.handlerBlocks.head?) = g.spans.map (·.handlerBlocks.head?)) :
    Refined P g g' := by
  have hplace (index : Nat) : g'.handlerPlace? index = g.handlerPlace? index := by
    have hhead : (g'.spans[index]?).map (·.handlerBlocks.head?)
        = (g.spans[index]?).map (·.handlerBlocks.head?) := by
      rw [← List.getElem?_map, ← List.getElem?_map, hheads]
    unfold handlerPlace?
    rw [houtline]
    cases h : g.spans[index]? with
    | none =>
      rw [h, Option.map_none, Option.map_eq_none_iff] at hhead
      rw [hhead]
    | some s =>
      rw [h] at hhead
      obtain ⟨s', hs', hsame⟩ := Option.map_eq_some_iff.mp hhead
      rw [hs', Option.bind_some, Option.bind_some, hsame]
  refine ⟨fun σ => ?_, fun index place hp => ⟨place, (hplace index).trans hp, fun σ => ?_⟩⟩
  · rw [houtline]
    exact Process.Refines.refl _ _ σ
  · rw [houtline]
    exact Process.Refines.refl _ _ σ

theorem refl (P : Platform) (g : Graph) : Refined P g g := of_eq rfl rfl

theorem trans (h : Refined P g g') (h' : Refined P g' g'') : Refined P g g'' where
  entry σ := (h.entry σ).trans (h'.entry σ)
  handler index place hplace := by
    obtain ⟨place', hplace', href⟩ := h.handler index place hplace
    obtain ⟨place'', hplace'', href'⟩ := h'.handler index place' hplace'
    exact ⟨place'', hplace'', fun σ => (href σ).trans (href' σ)⟩

end Refined

/-- The handler of every region of a well-formed graph starts with one of the blocks. -/
theorem Formed.handlerPlace?_eq {g : Graph} (h : g.Formed) {index : Nat} {s : Span}
    (hs : g.spans[index]? = some s) :
    ∃ l c rest, s.handlerBlocks.head? = some l ∧ l ∈ g.labels ∧
      g.handlerPlace? index = some ((l, c) :: rest) ∧ (l, c) :: rest <:+ g.outline := by
  have hmem := List.mem_of_getElem? hs
  obtain ⟨l, hl, -⟩ := h.starts s hmem
  have hlabel : l ∈ g.outline.labels := by
    rw [Outline.labels_outline]
    exact (h.handlers s hmem).subset (List.mem_of_mem_head? hl)
  obtain ⟨before, c, rest, hsplit, hnot⟩ := Outline.split_at_label hlabel
  refine ⟨l, c, rest, hl, by rw [← Outline.labels_outline]; exact hlabel, ?_,
    ⟨before, hsplit.symm⟩⟩
  rw [handlerPlace?, hs, Option.bind_some, hl, Option.bind_some, hsplit]
  exact Outline.from?_append c hnot

/-- A graph with the code of its blocks replaced shows what it showed before, if the code may
    be replaced where control comes in. -/
theorem Refined.of_rewrites {P : Platform} {g g' : Graph} (h : g.Formed)
    {F : Int × List Instruction → List Instruction} {inv : Int → Moment → Prop}
    (hrewrites : Outline.Rewrites P g.outline F inv) (houtline : g'.outline = g.outline.replace F)
    (hspans : g'.spans = g.spans)
    (hentry : ∀ e rest, g.outline = e :: rest → ∀ σ, inv e.1 σ)
    (hhandlers : ∀ s ∈ g.spans, ∀ l, s.handlerBlocks.head? = some l → ∀ σ, inv l σ) :
    Refined P g g' where
  entry σ := by
    rw [houtline]
    exact hrewrites.refines (List.suffix_refl _) fun e rest hplace => hentry e rest hplace σ
  handler index place hplace := by
    obtain ⟨s, hs, -⟩ := Option.bind_eq_some_iff.mp hplace
    obtain ⟨l, c, rest, hhead, -, hplace', hsuffix⟩ := h.handlerPlace?_eq hs
    rw [hplace] at hplace'
    cases hplace'
    refine ⟨Outline.replace ((l, c) :: rest) F, ?_, fun σ => ?_⟩
    · rw [handlerPlace?, hspans, hs, Option.bind_some, hhead, Option.bind_some, houtline,
        Outline.from?_replace]
      rw [handlerPlace?, hs, Option.bind_some, hhead, Option.bind_some] at hplace
      rw [hplace]
      rfl
    · rw [houtline]
      refine hrewrites.refines hsuffix ?_
      rintro e place heq
      cases heq
      exact hhandlers s (List.mem_of_getElem? hs) l hhead σ

end Graph

end Untangle
