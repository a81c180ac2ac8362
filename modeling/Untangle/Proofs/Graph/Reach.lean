/-
  Untangle.Proofs.Graph.Reach

  The search for reachable blocks finds those that the edges lead to from the entry and the
  handlers. Removing the others changes nothing that a run can show, and leaves a graph in
  which every block is reached.
-/
import Untangle.Graph.Reach
import Untangle.Proofs.Graph.Refined

namespace Untangle

namespace Graph

/-- A label to which the stored edges lead from where control comes in. -/
inductive Reached (g : Graph) : Int → Prop where
  | root {l : Int} (h : l ∈ g.roots) : Reached g l
  | edge {b : Block} {l : Int} (hb : b ∈ g.blocks) (h : Reached g b.label) (hl : l ∈ b.succs) :
      Reached g l

/-! ## The search -/

/-- The search finds only what is reached. -/
theorem reached_of_mem_explore {g : Graph} {seen waiting : List Int}
    (hseen : ∀ l ∈ seen, g.Reached l) (hwaiting : ∀ l ∈ waiting, g.Reached l) :
    ∀ l ∈ g.explore seen waiting, g.Reached l := by
  fun_induction explore g seen waiting with
  | case1 seen => exact hseen
  | case2 seen label rest hin ih =>
    exact ih hseen fun l hl => hwaiting l (List.mem_cons_of_mem _ hl)
  | case3 seen label rest hnot hnone ih =>
    exact ih hseen fun l hl => hwaiting l (List.mem_cons_of_mem _ hl)
  | case4 seen label rest hnot b hb ih =>
    have hlabel := hwaiting label List.mem_cons_self
    obtain ⟨hmem, rfl⟩ := block?_eq_some hb
    refine ih (fun l hl => ?_) (fun l hl => ?_)
    · rcases List.mem_cons.mp hl with rfl | hl
      · exact hlabel
      · exact hseen l hl
    · rcases List.mem_append.mp hl with hl | hl
      · exact hwaiting l (List.mem_cons_of_mem _ hl)
      · exact .edge hmem hlabel (List.mem_of_mem_filter hl)

/-- The search finds what it starts with, and goes along every edge. -/
theorem explore_closed {g : Graph} {seen waiting : List Int}
    (hseen : ∀ l ∈ seen, ∀ b, g.block? l = some b → ∀ l' ∈ b.succs,
      (g.block? l').isSome → l' ∈ seen ∨ l' ∈ waiting) :
    (∀ l ∈ seen, l ∈ g.explore seen waiting)
      ∧ (∀ l ∈ waiting, (g.block? l).isSome → l ∈ g.explore seen waiting)
      ∧ ∀ l ∈ g.explore seen waiting, ∀ b, g.block? l = some b → ∀ l' ∈ b.succs,
          (g.block? l').isSome → l' ∈ g.explore seen waiting := by
  fun_induction explore g seen waiting with
  | case1 seen =>
    refine ⟨fun l hl => hl, fun l hl => absurd hl List.not_mem_nil, ?_⟩
    intro l hl b hb l' hl' hsome
    rcases hseen l hl b hb l' hl' hsome with h | h
    · exact h
    · exact absurd h List.not_mem_nil
  | case2 seen label rest hin ih =>
    have hin' : label ∈ seen := by simpa using hin
    obtain ⟨hs, hw, hc⟩ := ih fun l hl b hb l' hl' hsome => by
      rcases hseen l hl b hb l' hl' hsome with h | h
      · exact Or.inl h
      · rcases List.mem_cons.mp h with rfl | h
        · exact Or.inl hin'
        · exact Or.inr h
    refine ⟨hs, fun l hl hsome => ?_, hc⟩
    rcases List.mem_cons.mp hl with rfl | hl
    · exact hs _ hin'
    · exact hw l hl hsome
  | case3 seen label rest hnot hnone ih =>
    obtain ⟨hs, hw, hc⟩ := ih fun l hl b hb l' hl' hsome => by
      rcases hseen l hl b hb l' hl' hsome with h | h
      · exact Or.inl h
      · rcases List.mem_cons.mp h with rfl | h
        · rw [hnone] at hsome
          cases hsome
        · exact Or.inr h
    refine ⟨hs, fun l hl hsome => ?_, hc⟩
    rcases List.mem_cons.mp hl with rfl | hl
    · rw [hnone] at hsome
      cases hsome
    · exact hw l hl hsome
  | case4 seen label rest hnot b hb ih =>
    obtain ⟨hs, hw, hc⟩ := ih fun l hl c hc l' hl' hsome => by
      rcases List.mem_cons.mp hl with rfl | hl
      · -- The successors of the block just seen wait, unless they have been seen.
        rw [hb] at hc
        cases hc
        by_cases hin : l' ∈ seen
        · exact Or.inl (List.mem_cons_of_mem _ hin)
        · refine Or.inr (List.mem_append_right _ (List.mem_filter.mpr ⟨hl', ?_⟩))
          simpa using hin
      · rcases hseen l hl c hc l' hl' hsome with h | h
        · exact Or.inl (List.mem_cons_of_mem _ h)
        · rcases List.mem_cons.mp h with rfl | h
          · exact Or.inl List.mem_cons_self
          · exact Or.inr (List.mem_append_left _ h)
    refine ⟨fun l hl => hs l (List.mem_cons_of_mem _ hl), fun l hl hsome => ?_, hc⟩
    rcases List.mem_cons.mp hl with rfl | hl
    · exact hs _ List.mem_cons_self
    · exact hw l (List.mem_append_left _ hl) hsome

namespace Wired

variable {g : Graph}

theorem block?_isSome (h : g.Wired) {l : Int} (hl : l ∈ g.labels) : (g.block? l).isSome := by
  obtain ⟨b, hb, rfl⟩ := List.mem_map.mp hl
  rw [block?_of_mem h.labels_nodup hb]
  rfl

/-- The search finds exactly what is reached. -/
theorem mem_reachable (h : g.Wired) (hroots : g.roots ⊆ g.labels) (l : Int) :
    l ∈ g.reachable ↔ g.Reached l := by
  obtain ⟨-, hwaiting, hclosed⟩ := @explore_closed g []
    (g.roots.filter g.hasBlock) fun l hl => absurd hl List.not_mem_nil
  constructor
  · exact reached_of_mem_explore (fun l hl => absurd hl List.not_mem_nil)
      (fun l hl => .root (List.mem_of_mem_filter hl)) l
  · intro hl
    induction hl with
    | root hroot =>
      exact hwaiting _ (List.mem_filter.mpr ⟨hroot, hasBlock_iff.mpr (hroots hroot)⟩)
        (h.block?_isSome (hroots hroot))
    | edge hb _ hsucc ih =>
      exact hclosed _ ih _ (block?_of_mem h.labels_nodup hb) _ hsucc
        (h.block?_isSome (h.succs _ hb hsucc))

end Wired

/-! ## Roots of a well-formed graph -/

namespace Formed

variable {g : Graph}

/-- The first block is the entry. -/
theorem entry?_eq (h : g.Formed) : g.entry? = g.blocks.head? := by
  unfold entry?
  cases hblocks : g.blocks with
  | nil => rfl
  | cons b rest =>
    rw [List.find?_cons_of_pos (by exact (h.entry b rest hblocks).1)]
    rfl

theorem handlerRoots_subset (h : g.Formed) : g.handlerRoots ⊆ g.labels := by
  intro l hl
  obtain ⟨s, hs, hhead⟩ := List.mem_filterMap.mp hl
  exact (h.handlers s hs).subset (List.mem_of_mem_head? hhead)

/-- Control comes in at the first block and at the heads of the handlers. -/
theorem roots_eq (h : g.Formed) :
    g.roots = g.labels.head?.toList ++ (g.spans.map (·.handlerBlocks.head?)).filterMap id := by
  rw [roots, h.entry?_eq, labels, List.head?_map, handlerRoots, List.filterMap_map]
  rfl

theorem roots_subset (h : g.Formed) : g.roots ⊆ g.labels := by
  intro l hl
  rw [h.roots_eq] at hl
  rcases List.mem_append.mp hl with hl | hl
  · exact List.mem_of_mem_head? (Option.mem_toList.mp hl)
  · rw [List.filterMap_map] at hl
    exact h.handlerRoots_subset hl

/-- Graphs with the same first block and the same heads have the same roots. -/
theorem roots_congr {g' : Graph} (h : g.Formed) (h' : g'.Formed)
    (hfirst : g'.labels.head? = g.labels.head?)
    (hheads : g'.spans.map (·.handlerBlocks.head?) = g.spans.map (·.handlerBlocks.head?)) :
    g'.roots = g.roots := by
  rw [h.roots_eq, h'.roots_eq, hfirst, hheads]

/-- The search finds exactly what is reached. -/
theorem mem_reachable (h : g.Formed) (hlinked : g.Linked) (l : Int) :
    l ∈ g.reachable ↔ g.Reached l :=
  (h.wired hlinked).mem_reachable h.roots_subset l

end Formed

/-- Every block is reached. -/
def AllReached (g : Graph) : Prop := ∀ l ∈ g.labels, g.Reached l

theorem unreachable_eq_nil_iff {g : Graph} (h : g.Formed) (hlinked : g.Linked) :
    g.unreachable = [] ↔ g.AllReached := by
  unfold unreachable AllReached
  rw [List.filter_eq_nil_iff]
  simp only [Bool.not_eq_true', Bool.not_eq_false, List.contains_iff_mem]
  constructor
  · intro hall l hl
    obtain ⟨b, hb, rfl⟩ := List.mem_map.mp hl
    exact (h.mem_reachable hlinked b.label).mp (hall b hb)
  · intro hall b hb
    exact (h.mem_reachable hlinked b.label).mpr (hall b.label (mem_labels_of_mem hb))

/-! ## Removing what is not reached -/

/-- Whether a label is reached. -/
def isLive (g : Graph) (l : Int) : Bool := g.reachable.contains l

theorem Wired.isLive_iff {g : Graph} (h : g.Wired) (hroots : g.roots ⊆ g.labels) (l : Int) :
    g.isLive l = true ↔ g.Reached l := by
  rw [isLive, List.contains_iff_mem, h.mem_reachable hroots]

namespace Formed

variable {g : Graph}

theorem isLive_iff (h : g.Formed) (hlinked : g.Linked) (l : Int) :
    g.isLive l = true ↔ g.Reached l :=
  (h.wired hlinked).isLive_iff h.roots_subset l

theorem isLive_of_leads (h : g.Formed) (hlinked : g.Linked) {a l : Int}
    (ha : g.isLive a = true) (hl : g.Leads a l) : g.isLive l = true := by
  rw [h.isLive_iff hlinked] at ha ⊢
  obtain ⟨before, c, rest, hsplit, -⟩ := id hl
  obtain ⟨b, hb, rfl, -⟩ := exists_block_of_mem
    (show (a, c) ∈ g.outline from hsplit ▸ List.mem_append_right _ List.mem_cons_self)
  exact .edge hb ha ((hlinked.succs b hb l).mpr hl)

end Formed

/-- A label counts as gone when its block is not reached. -/
theorem mem_gone_iff {g : Graph} {l : Int} (hl : l ∈ g.labels) :
    (g.unreachable.map (·.label)).contains l = !g.isLive l := by
  rw [Bool.eq_iff_iff, List.contains_iff_mem, List.mem_map]
  unfold unreachable isLive
  constructor
  · rintro ⟨b, hb, rfl⟩
    exact (List.mem_filter.mp hb).2
  · intro hdead
    obtain ⟨b, hb, rfl⟩ := List.mem_map.mp hl
    exact ⟨b, List.mem_filter.mpr ⟨hb, hdead⟩, rfl⟩

/-- The blocks that are left are those that are reached. -/
theorem removeUnreachable_blocks (g : Graph) :
    g.removeUnreachable.blocks = (g.blocks.filter fun b => g.isLive b.label).map fun b =>
      { b with
        preds := b.preds.filter fun l => !(g.unreachable.map (·.label)).contains l
        succs := b.succs.filter fun l => !(g.unreachable.map (·.label)).contains l } := by
  show (g.blocks.filter _).map _ = _
  congr 1
  refine List.filter_congr fun b hb => ?_
  rw [mem_gone_iff (mem_labels_of_mem hb), Bool.not_not]

@[simp] theorem removeUnreachable_outline (g : Graph) :
    g.removeUnreachable.outline = g.outline.only g.isLive := by
  unfold outline Outline.only
  rw [removeUnreachable_blocks, List.map_map, List.filter_map]
  rfl

theorem removeUnreachable_labels (g : Graph) :
    g.removeUnreachable.labels = g.labels.filter g.isLive := by
  rw [← Outline.labels_outline, removeUnreachable_outline, Outline.only, Outline.labels,
    ← Outline.labels_outline, Outline.labels, List.filter_map]
  rfl

/-- Where every block is reached none goes. -/
theorem removeUnreachable_eq_self {g : Graph} (h : g.unreachable = []) :
    g.removeUnreachable = g := by
  simp [removeUnreachable, without, h, Span.without]

/-- What is left of a handler stands together. -/
theorem removeUnreachable_handlers {g : Graph}
    (h : ∀ s ∈ g.spans, s.handlerBlocks <:+: g.labels) :
    ∀ s ∈ g.removeUnreachable.spans, s.handlerBlocks <:+: g.removeUnreachable.labels := by
  intro s' hs'
  obtain ⟨s, hs, rfl⟩ := List.mem_map.mp hs'
  have hkeep : (s.without (g.unreachable.map (·.label))).handlerBlocks
      = s.handlerBlocks.filter g.isLive := by
    refine List.filter_congr fun l hl => ?_
    rw [mem_gone_iff ((h s hs).subset hl), Bool.not_not]
  rw [hkeep, removeUnreachable_labels]
  obtain ⟨before, behind, hsplit⟩ := h s hs
  rw [← hsplit, List.filter_append, List.filter_append]
  exact ⟨_, _, rfl⟩

theorem removeUnreachable_code_sublist (g : Graph) :
    g.removeUnreachable.code.Sublist g.code := by
  rw [← Outline.code_outline, removeUnreachable_outline, ← Outline.code_outline]
  exact List.filter_sublist.flatMap _

namespace Formed

variable {g : Graph}

/-- The heads of the handlers are kept. -/
theorem removeUnreachable_heads (h : g.Formed) (hlinked : g.Linked) :
    g.removeUnreachable.spans.map (·.handlerBlocks.head?)
      = g.spans.map (·.handlerBlocks.head?) := by
  show (g.spans.map _).map _ = _
  rw [List.map_map]
  refine List.map_congr_left fun s hs => ?_
  obtain ⟨l, hl, -⟩ := h.starts s hs
  obtain ⟨rest, hrest⟩ := List.head?_eq_some_iff.mp hl
  have hroot : l ∈ g.roots :=
    List.mem_append_right _ (List.mem_filterMap.mpr ⟨s, hs, hl⟩)
  have hlive : g.isLive l = true := (h.isLive_iff hlinked l).mpr (.root hroot)
  have hgone := mem_gone_iff (h.roots_subset hroot)
  rw [hlive] at hgone
  show (s.handlerBlocks.filter _).head? = s.handlerBlocks.head?
  rw [hrest, List.filter_cons, hgone]
  rfl

/-- The first block is kept. -/
theorem isLive_first (h : g.Formed) (hlinked : g.Linked) {b : Block} {rest : List Block}
    (hblocks : g.blocks = b :: rest) : g.isLive b.label = true := by
  refine (h.isLive_iff hlinked _).mpr (.root ?_)
  rw [h.roots_eq, labels, hblocks]
  exact List.mem_append_left _ (List.mem_singleton_self _)

/-- Where control can go from a block that is reached. -/
theorem leads_removeUnreachable (h : g.Formed) (hlinked : g.Linked) {a : Int}
    (ha : g.isLive a = true) (l : Int) : g.removeUnreachable.Leads a l ↔ g.Leads a l := by
  have hnodup : g.removeUnreachable.outline.labels.Nodup := by
    rw [Outline.labels_outline, removeUnreachable_labels]
    exact h.labels_nodup.filter _
  by_cases hmem : a ∈ g.labels
  · rw [← Outline.labels_outline] at hmem
    obtain ⟨before, c, rest, hsplit, -⟩ := Outline.split_at_label hmem
    have hsplit' : g.removeUnreachable.outline
        = Outline.only before g.isLive ++ (a, c) :: Outline.only rest g.isLive := by
      rw [removeUnreachable_outline, hsplit, Outline.only, List.filter_append,
        List.filter_cons_of_pos (by exact ha)]
      rfl
    rw [leads_iff h.outline_nodup hsplit, leads_iff hnodup hsplit']
    refine or_congr_right (and_congr_right fun hfalls => ?_)
    -- What comes behind code that is run through is reached.
    cases rest with
    | nil => rfl
    | cons e rest =>
      have hnext : g.Leads a e.1 := ⟨before, c, e :: rest, hsplit, Or.inr ⟨hfalls, rfl⟩⟩
      have hlive := h.isLive_of_leads hlinked ha hnext
      rw [Outline.only, List.filter_cons_of_pos (by exact hlive)]
      rfl
  · have hnot : a ∉ g.removeUnreachable.labels := by
      rw [removeUnreachable_labels]
      exact fun hin => hmem (List.mem_of_mem_filter hin)
    exact iff_of_false (fun hl => hnot hl.mem_labels) fun hl => hmem hl.mem_labels

/-- The block of a branch that is left is reached, so its target is, and it is left. -/
theorem removeUnreachable_target (h : g.Formed) (hlinked : g.Linked) {ins : Instruction}
    (hins : ins ∈ g.removeUnreachable.code) {t : Value} (ht : t ∈ ins.aims) :
    ∃ l ∈ g.removeUnreachable.labels, t.wholeNumber? = some l := by
  obtain ⟨l, -, hl⟩ := h.aims ((removeUnreachable_code_sublist g).subset hins) ht
  refine ⟨l, ?_, hl⟩
  rw [← Outline.code_outline, removeUnreachable_outline] at hins
  obtain ⟨e, he, hin⟩ := List.mem_flatMap.mp hins
  obtain ⟨he, hlive⟩ := List.mem_filter.mp he
  have hbranch := Instruction.isBranch_of_mem_aims ht
  have hlast := h.eq_last he hin (by simp [Instruction.endsRun, hbranch])
  obtain ⟨before, rest, hsplit⟩ := List.append_of_mem he
  have hleads : g.Leads e.1 l := ⟨before, e.2, rest, hsplit, Or.inl ⟨ins, hlast, t, ht, hl⟩⟩
  rw [removeUnreachable_labels]
  exact List.mem_filter.mpr ⟨h.mem_labels_of_leads hleads, h.isLive_of_leads hlinked hlive hleads⟩

/-- The entry of the graph is left. -/
theorem removeUnreachable_entry (h : g.Formed) (hlinked : g.Linked) {b' : Block}
    {rest' : List Block} (hblocks' : g.removeUnreachable.blocks = b' :: rest') :
    b'.isEntry = true ∧ ∀ c ∈ rest', c.isEntry = false := by
  rw [removeUnreachable_blocks] at hblocks'
  cases hblocks : g.blocks with
  | nil => rw [hblocks] at hblocks'; cases hblocks'
  | cons b rest =>
    obtain ⟨hfirst, hothers⟩ := h.entry b rest hblocks
    rw [hblocks, List.filter_cons_of_pos (by exact h.isLive_first hlinked hblocks),
      List.map_cons] at hblocks'
    obtain ⟨rfl, rfl⟩ := List.cons.inj hblocks'
    refine ⟨hfirst, fun c' hc' => ?_⟩
    obtain ⟨c, hc, rfl⟩ := List.mem_map.mp hc'
    exact hothers c (List.mem_of_mem_filter hc)

/-- What is left of a well-formed graph is well-formed. -/
theorem removeUnreachable (h : g.Formed) (hlinked : g.Linked) : g.removeUnreachable.Formed := by
  have hcode := (removeUnreachable_code_sublist g).subset
  have houtline : g.removeUnreachable.outline ⊆ g.outline := by
    rw [removeUnreachable_outline]
    exact List.filter_sublist.subset
  have hlabels := removeUnreachable_labels g
  constructor
  case labels_nodup =>
    rw [hlabels]
    exact h.labels_nodup.filter _
  case uids_nodup => exact h.uids_nodup.sublist ((removeUnreachable_code_sublist g).map _)
  case labels_fresh =>
    rw [hlabels]
    exact fun l hl => h.labels_fresh l (List.mem_of_mem_filter hl)
  case uids_fresh => exact fun ins hins => h.uids_fresh ins (hcode hins)
  case own =>
    rw [hlabels]
    exact fun e he ins hins huid =>
      h.own e (houtline he) ins hins (List.mem_of_mem_filter huid)
  case straight => exact fun e he => h.straight e (houtline he)
  case targets =>
    exact fun ins hins => ⟨ins.aims, h.targets_ok (hcode hins), fun t ht =>
      h.removeUnreachable_target hlinked hins ht⟩
  case entry => exact fun b rest hblocks => h.removeUnreachable_entry hlinked hblocks
  case handlers => exact removeUnreachable_handlers h.handlers
  case starts =>
    intro s' hs'
    obtain ⟨s, hs, rfl⟩ := List.mem_map.mp hs'
    obtain ⟨l, hl, hstart⟩ := h.starts s hs
    refine ⟨l, ?_, hstart⟩
    rw [← hl]
    have hheads : (g.spans.map fun s => (s.without (g.unreachable.map (·.label)))).map
        (·.handlerBlocks.head?) = g.spans.map (·.handlerBlocks.head?) :=
      h.removeUnreachable_heads hlinked
    rw [List.map_map] at hheads
    exact List.map_inj_left.mp hheads s hs
  case exits =>
    intro r hr
    obtain ⟨hfresh, hleave⟩ := h.exits r (List.mem_of_mem_filter hr)
    exact ⟨hfresh, fun ins hins => hleave ins (hcode hins)⟩

/-- The edges of what is left are those of its outline. -/
theorem removeUnreachable_linked (h : g.Formed) (hlinked : g.Linked) :
    g.removeUnreachable.Linked := by
  have hgone (l : Int) (hl : l ∈ g.labels) :
      (!(g.unreachable.map (·.label)).contains l) = g.isLive l := by
    rw [mem_gone_iff hl, Bool.not_not]
  constructor
  · intro b' hb' l
    rw [removeUnreachable_blocks] at hb'
    obtain ⟨b, hb, rfl⟩ := List.mem_map.mp hb'
    obtain ⟨hmem, hlive⟩ := List.mem_filter.mp hb
    rw [h.leads_removeUnreachable hlinked hlive, List.mem_filter, hlinked.succs b hmem]
    refine and_iff_left_of_imp fun hleads => ?_
    rw [hgone l (h.mem_labels_of_leads hleads)]
    exact h.isLive_of_leads hlinked hlive hleads
  · intro b' hb' l
    rw [removeUnreachable_blocks] at hb'
    obtain ⟨b, hb, rfl⟩ := List.mem_map.mp hb'
    obtain ⟨hmem, hlive⟩ := List.mem_filter.mp hb
    rw [List.mem_filter, hlinked.preds b hmem]
    dsimp only
    constructor
    · rintro ⟨hleads, hkept⟩
      rw [hgone l hleads.mem_labels] at hkept
      exact (h.leads_removeUnreachable hlinked hkept _).mpr hleads
    · intro hleads
      have hl := hleads.mem_labels
      rw [removeUnreachable_labels] at hl
      obtain ⟨hin, hkept⟩ := List.mem_filter.mp hl
      rw [hgone l hin]
      exact ⟨(h.leads_removeUnreachable hlinked hkept _).mp hleads, hkept⟩

/-- Control comes in where it came in. -/
theorem removeUnreachable_roots (h : g.Formed) (hlinked : g.Linked) :
    g.removeUnreachable.roots = g.roots := by
  refine h.roots_congr (h.removeUnreachable hlinked) ?_ (h.removeUnreachable_heads hlinked)
  rw [removeUnreachable_labels, labels]
  cases hblocks : g.blocks with
  | nil => rfl
  | cons b rest =>
    rw [List.map_cons, List.filter_cons_of_pos (by exact h.isLive_first hlinked hblocks)]
    rfl

/-- What is left is reached. -/
theorem removeUnreachable_reached (h : g.Formed) (hlinked : g.Linked) :
    g.removeUnreachable.AllReached := by
  have hroots := h.removeUnreachable_roots hlinked
  have hlinked' := h.removeUnreachable_linked hlinked
  intro l hl
  rw [removeUnreachable_labels] at hl
  have hreached := (h.isLive_iff hlinked l).mp (List.mem_filter.mp hl).2
  clear hl
  induction hreached with
  | root hroot => exact .root (hroots ▸ hroot)
  | edge hb hfrom hsucc ih =>
    have hlive := (h.isLive_iff hlinked _).mpr hfrom
    have hleads := (h.leads_removeUnreachable hlinked hlive _).mpr
      ((hlinked.succs _ hb _).mp hsucc)
    obtain ⟨b', hb', hlabel⟩ := List.mem_map.mp hleads.mem_labels
    rw [← hlabel] at ih hleads
    exact .edge hb' ih ((hlinked'.succs b' hb' _).mpr hleads)

/-- Removing what is not reached changes nothing that a run can show. -/
theorem removeUnreachable_refined (h : g.Formed) (hlinked : g.Linked) {P : Platform}
    (hP : P.terminators = g.terminators) : Refined P g g.removeUnreachable := by
  have hconfined : Outline.Confined P g.outline g.isLive :=
    h.keeps hP fun e _ l hleads _ _ hlive _ => h.isLive_of_leads hlinked hlive hleads
  constructor
  · intro σ
    rw [removeUnreachable_outline]
    refine Outline.Confined.refines hconfined (List.suffix_refl _) ?_
    intro e place hplace
    cases hblocks : g.blocks with
    | nil => rw [outline, hblocks] at hplace; cases hplace
    | cons b rest =>
      rw [outline, hblocks, List.map_cons] at hplace
      obtain ⟨rfl, -⟩ := List.cons.inj hplace
      exact h.isLive_first hlinked hblocks
  · intro index place hplace
    obtain ⟨s, hs, -⟩ := Option.bind_eq_some_iff.mp hplace
    obtain ⟨l, c, rest, hhead, hl, hplace', hsuffix⟩ := h.handlerPlace?_eq hs
    rw [hplace] at hplace'
    cases hplace'
    have hlive : g.isLive l = true := by
      refine (h.isLive_iff hlinked l).mpr (.root (List.mem_append_right _ ?_))
      exact List.mem_filterMap.mpr ⟨s, List.mem_of_getElem? hs, hhead⟩
    refine ⟨Outline.only ((l, c) :: rest) g.isLive, ?_, fun σ => ?_⟩
    · have hheads := h.removeUnreachable_heads hlinked
      have hspan : (g.removeUnreachable.spans[index]?).map (·.handlerBlocks.head?)
          = some (some l) := by
        rw [← List.getElem?_map, hheads, List.getElem?_map, hs, Option.map_some, hhead]
      obtain ⟨s', hs', hhead'⟩ := Option.map_eq_some_iff.mp hspan
      rw [handlerPlace?, hs', Option.bind_some, hhead', Option.bind_some,
        removeUnreachable_outline, Outline.from?_only _ hlive]
      rw [handlerPlace?, hs, Option.bind_some, hhead, Option.bind_some] at hplace
      rw [hplace]
      rfl
    · rw [removeUnreachable_outline]
      refine Outline.Confined.refines hconfined hsuffix ?_
      rintro e place heq
      cases heq
      exact hlive

end Formed

end Graph

end Untangle
