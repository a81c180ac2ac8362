/-
  Untangle.Proofs.Stage.Pruned

  Pruning takes away exactly the blocks that are not reached, and nothing that is left mentions
  them (`Work.prune_exact`) but the boundaries of regions, which only the last stage moves
  (`Work.skippedStart_named`). A block that is reached leads to blocks that are reached, so it
  leads there still when the others are gone (`Current.successors_live`); the edges that are kept
  are those that would be computed afresh.
-/
import Untangle.Proofs.Graph.Joined
import Untangle.Proofs.Stage.Underway

namespace Untangle

/-- A number is the label of a block or the uid of one of its instructions. -/
def Block.Answers (b : Block) (n : Int) : Prop :=
  n = b.label ∨ n ∈ b.code.map (·.uid)

namespace Graph

variable {g : Graph}

/-! ## Names -/

/-- What names a block leads into it. -/
theorem Sturdy.landing (h : g.Sturdy) {b : Block} (hb : b ∈ g.blocks) {n : Int}
    (hn : b.Answers n) : g.landing? n = some b.label := by
  unfold landing?
  by_cases hlabel : n ∈ g.labels
  · rw [if_pos (hasBlock_iff.mpr hlabel)]
    rcases hn with hn | hn
    · rw [hn]
    · obtain ⟨ins, hins, rfl⟩ := List.mem_map.mp hn
      rw [h.own _ (mem_outline_of_mem hb) ins hins hlabel]
  · rw [if_neg fun hblock => hlabel (hasBlock_iff.mp hblock)]
    rcases hn with rfl | hn
    · exact absurd (mem_labels_of_mem hb) hlabel
    · have hfound : ((g.blocks.find? fun c => c.code.any fun ins => ins.uid == n)).isSome := by
        obtain ⟨ins, hins, huid⟩ := List.mem_map.mp hn
        exact List.find?_isSome.mpr ⟨b, hb, List.any_eq_true.mpr ⟨ins, hins, beq_iff_eq.mpr huid⟩⟩
      obtain ⟨c, hc⟩ := Option.isSome_iff_exists.mp hfound
      have hany : (c.code.any fun ins => ins.uid == n) = true := by simpa using List.find?_some hc
      obtain ⟨ins, hins, huid⟩ := List.any_eq_true.mp hany
      have hsame : c = b := h.eq_of_uid (List.mem_of_find?_eq_some hc) hb
        (List.mem_map.mpr ⟨ins, hins, eq_of_beq huid⟩) hn
      rw [owner?, hc, hsame]
      rfl

/-- No two blocks have a name in common. -/
theorem Sturdy.label_of_answers (h : g.Sturdy) {b d : Block} (hb : b ∈ g.blocks)
    (hd : d ∈ g.blocks) {n : Int} (hbn : b.Answers n) (hdn : d.Answers n) : b.label = d.label :=
  Option.some.inj ((h.landing hb hbn).symm.trans (h.landing hd hdn))

/-! ## Blocks that are reached -/

theorem Sturdy.roots_subset (h : g.Sturdy) : g.roots ⊆ g.labels := by
  intro l hl
  rcases List.mem_append.mp hl with hl | hl
  · obtain ⟨b, hb, rfl⟩ := Option.map_eq_some_iff.mp (Option.mem_toList.mp hl)
    exact mem_labels_of_mem (List.mem_of_find?_eq_some hb)
  · obtain ⟨s, hs, hhead⟩ := List.mem_filterMap.mp hl
    exact (h.ranged s hs).2 (List.mem_of_mem_head? hhead)

theorem Sturdy.isLive_iff (h : g.Sturdy) (hcurrent : g.Current) (l : Int) :
    g.isLive l = true ↔ g.Reached l :=
  hcurrent.wired.isLive_iff h.roots_subset l

/-- A block that is reached leads to blocks that are reached. -/
theorem Sturdy.isLive_of_successor (h : g.Sturdy) (hcurrent : g.Current) {b : Block}
    (hb : b ∈ g.blocks) (hlive : g.isLive b.label = true) {l : Int} (hl : l ∈ g.successors b) :
    g.isLive l = true := by
  rw [h.isLive_iff hcurrent] at hlive ⊢
  exact .edge hb hlive ((hcurrent.succs b hb l).mpr hl)

/-- A label has the same label after it when others are left out, as long as that one is not. -/
theorem labelAfter?_filter {p : Int → Bool} {label : Int} (hlabel : p label = true)
    {labels : List Int} (hnext : ∀ l, labelAfter? label labels = some l → p l = true) :
    labelAfter? label (labels.filter p) = labelAfter? label labels := by
  induction labels with
  | nil => rfl
  | cons l rest ih =>
    by_cases hl : l = label
    · subst hl
      rw [List.filter_cons_of_pos hlabel]
      simp only [labelAfter?, beq_self_eq_true, if_true] at hnext ⊢
      cases rest with
      | nil => rfl
      | cons next rest =>
        rw [List.filter_cons_of_pos (hnext next rfl)]
        rfl
    · have hskip (others : List Int) :
          labelAfter? label (l :: others) = labelAfter? label others := by
        simp only [labelAfter?, beq_iff_eq, hl, if_false]
      rw [hskip] at hnext ⊢
      rw [List.filter_cons]
      split
      · rw [hskip]
        exact ih hnext
      · exact ih hnext

/-- Where a branch lands stays the same, if it lands in a block that is reached. -/
theorem landing?_removeUnreachable {n : Int}
    (h : ∀ l, g.landing? n = some l → g.isLive l = true) :
    g.removeUnreachable.landing? n = g.landing? n := by
  have hlabels : n ∈ g.removeUnreachable.labels ↔ n ∈ g.labels ∧ g.isLive n = true := by
    rw [removeUnreachable_labels, List.mem_filter]
  have howner : g.removeUnreachable.owner? n
      = ((g.blocks.filter fun b => g.isLive b.label).find? fun b =>
          b.code.any fun ins => ins.uid == n).map (·.label) := by
    rw [owner?, removeUnreachable_blocks, List.find?_map, Option.map_map]
    rfl
  unfold landing? at h ⊢
  by_cases hlabel : n ∈ g.labels
  · rw [if_pos (hasBlock_iff.mpr hlabel)] at h ⊢
    rw [if_pos (hasBlock_iff.mpr (hlabels.mpr ⟨hlabel, h n rfl⟩))]
  · have hnot : ¬g.hasBlock n = true := fun hblock => hlabel (hasBlock_iff.mp hblock)
    rw [if_neg hnot] at h ⊢
    rw [if_neg fun hblock => hlabel (hlabels.mp (hasBlock_iff.mp hblock)).1, howner]
    unfold owner? at h ⊢
    cases hfound : g.blocks.find? fun b => b.code.any fun ins => ins.uid == n with
    | some b =>
      rw [hfound] at h
      rw [find?_filter_of_some hfound (h b.label rfl)]
    | none =>
      rw [List.find?_eq_none.mpr fun b hb =>
        List.find?_eq_none.mp hfound b (List.mem_of_mem_filter hb)]

/-- A block that is reached leads where it led when the others are gone. -/
theorem Sturdy.successors_live (h : g.Sturdy) (hcurrent : g.Current) {b : Block}
    (hb : b ∈ g.blocks) (hlive : g.isLive b.label = true) (preds succs : List Int) :
    g.removeUnreachable.successors { b with preds, succs } = g.successors b := by
  have hreached : ∀ l ∈ g.successors b, g.isLive l = true := fun l =>
    h.isLive_of_successor hcurrent hb hlive
  simp only [successors_eq, mem_distinct, List.mem_append] at hreached
  rw [successors_eq, successors_eq]
  show distinct ((b.last?.elim [] fun last =>
      last.targetUids.filterMap g.removeUnreachable.landing?)
    ++ if b.last?.all fun last => last.fallsThrough g.terminators then
        (g.removeUnreachable.nextLabel? b.label).toList else []) = _
  congr 2
  · cases hlast : b.last? with
    | none => rfl
    | some last =>
      rw [hlast] at hreached
      exact List.filterMap_congr fun n hn => landing?_removeUnreachable fun l hl =>
        hreached l (Or.inl (List.mem_filterMap.mpr ⟨n, hn, hl⟩))
  · split
    · rename_i hfalls
      rw [if_pos hfalls] at hreached
      rw [nextLabel?, nextLabel?, removeUnreachable_labels, labelAfter?_filter hlive fun l hl =>
        hreached l (Or.inr (Option.mem_toList.mpr hl))]
    · rfl

/-- A block that is left is one that is reached, without its edges to and from the others. -/
theorem mem_removeUnreachable {b' : Block} : b' ∈ g.removeUnreachable.blocks
    ↔ ∃ b ∈ g.blocks, g.isLive b.label = true ∧ { b with
        preds := b.preds.filter fun l => !(g.unreachable.map (·.label)).contains l
        succs := b.succs.filter fun l => !(g.unreachable.map (·.label)).contains l } = b' := by
  rw [removeUnreachable_blocks, List.mem_map]
  simp only [List.mem_filter, and_assoc]

/-- Edges are up to date when the blocks that are not reached are gone. -/
theorem Sturdy.current_removeUnreachable (h : g.Sturdy) (hcurrent : g.Current) :
    g.removeUnreachable.Current := by
  have hgone {l : Int} (hl : l ∈ g.labels) :
      (!(g.unreachable.map (·.label)).contains l) = g.isLive l := by
    rw [mem_gone_iff hl, Bool.not_not]
  constructor
  case labels_nodup =>
    rw [removeUnreachable_labels]
    exact h.labels_nodup.filter _
  case uids_nodup => exact h.uids_nodup.sublist ((removeUnreachable_code_sublist g).map _)
  case succs =>
    intro b' hb' l
    obtain ⟨b, hb, hlive, rfl⟩ := mem_removeUnreachable.mp hb'
    rw [h.successors_live hcurrent hb hlive, List.mem_filter, hcurrent.succs b hb]
    refine and_iff_left_of_imp fun hl => ?_
    rw [hgone (g.successors_subset b hl)]
    exact h.isLive_of_successor hcurrent hb hlive hl
  case preds =>
    intro b' hb' l
    obtain ⟨b, hb, hlive, rfl⟩ := mem_removeUnreachable.mp hb'
    dsimp only
    rw [List.mem_filter, hcurrent.preds b hb]
    constructor
    · rintro ⟨⟨c, hc, rfl, hl⟩, hkept⟩
      rw [hgone (mem_labels_of_mem hc)] at hkept
      exact ⟨_, mem_removeUnreachable.mpr ⟨c, hc, hkept, rfl⟩, rfl,
        (h.successors_live hcurrent hc hkept _ _).symm ▸ hl⟩
    · rintro ⟨c', hc', rfl, hl⟩
      obtain ⟨c, hc, hkept, rfl⟩ := mem_removeUnreachable.mp hc'
      rw [h.successors_live hcurrent hc hkept] at hl
      exact ⟨⟨c, hc, rfl, hl⟩, (hgone (mem_labels_of_mem hc)).trans hkept⟩

theorem Sturdy.current_pruned (h : g.Sturdy) (hcurrent : g.Current) : g.pruned.Current := by
  unfold pruned
  split
  · exact hcurrent
  · exact (h.current_removeUnreachable hcurrent).merged fun ins hins =>
      h.followed ins ((removeUnreachable_code_sublist g).subset hins)

/-- The stored edges are those that are found when all are computed afresh. -/
theorem Current.recomputed (h : g.Current) (hcheck : ∀ ins ∈ g.code, ins.checkTargets = .ok ()) :
    List.Forall₂ (fun b c : Block => c.label = b.label ∧ (∀ l, l ∈ b.succs ↔ l ∈ c.succs)
      ∧ ∀ l, l ∈ b.preds ↔ l ∈ c.preds) g.blocks g.connected.blocks := by
  rw [connected, followable_of_checkLasts (checkLasts_of_code hcheck)]
  refine List.forall₂_map_right_iff.mpr (List.forall₂_same.mpr fun b hb => ⟨rfl, ?_, ?_⟩)
  · intro l
    dsimp only
    rw [lookup_map_of_nodup _ _ h.labels_nodup hb]
    exact h.succs b hb l
  · intro l
    simp only [h.preds b hb, List.mem_map, List.mem_filter, List.contains_iff_mem]
    constructor
    · rintro ⟨c, hc, rfl, hl⟩
      exact ⟨_, ⟨⟨c, hc, rfl⟩, hl⟩, rfl⟩
    · rintro ⟨_, ⟨⟨c, hc, rfl⟩, hl⟩, rfl⟩
      exact ⟨c, hc, rfl, hl⟩

/-! ## What is left -/

/-- No branch, no list of the blocks in a region and no recorded exit names a block or one of its
    instructions. The boundaries of regions are another matter. -/
structure Forgets (g : Graph) (b : Block) : Prop where
  branches : ∀ ins ∈ g.code, ∀ n ∈ ins.targetUids, ¬b.Answers n
  ranges : ∀ s ∈ g.spans, ∀ l, l ∈ s.tryBlocks ∨ l ∈ s.handlerBlocks → ¬b.Answers l
  exits : ∀ r ∈ g.exits, ¬b.Answers r.uid

/-- An instruction that is left is one of a block that is reached. -/
theorem exists_live_block {ins : Instruction} (hins : ins ∈ g.removeUnreachable.code) :
    ∃ b ∈ g.blocks, g.isLive b.label = true ∧ ins ∈ b.code := by
  rw [← Outline.code_outline, removeUnreachable_outline] at hins
  obtain ⟨e, he, hin⟩ := List.mem_flatMap.mp hins
  obtain ⟨hmem, hlive⟩ := List.mem_filter.mp he
  obtain ⟨b, hb, hlabel, hcode⟩ := exists_block_of_mem hmem
  exact ⟨b, hb, hlabel ▸ hlive, hcode ▸ hin⟩

/-- What a branch of a block names leads where the block leads. -/
theorem Sturdy.mem_successors_of_target (h : g.Sturdy) {b : Block} (hb : b ∈ g.blocks)
    {ins : Instruction} (hins : ins ∈ b.code) {n l : Int} (hn : n ∈ ins.targetUids)
    (hl : g.landing? n = some l) : l ∈ g.successors b := by
  have hends : ins.endsRun g.terminators = true := by
    have hbranch : ins.isBranch = true := by
      by_contra hnot
      rw [Instruction.targetUids, Instruction.targets, if_pos (by simpa using hnot)] at hn
      cases hn
    rw [Instruction.endsRun, hbranch, Bool.true_or]
  have hlast : b.last? = some ins :=
    getLast?_of_mem (h.straight _ (mem_outline_of_mem hb)) hins hends
  rw [successors_eq, mem_distinct, hlast]
  exact List.mem_append_left _ (List.mem_filterMap.mpr ⟨n, hn, hl⟩)

/-- Nothing that is left names a block that is not reached. -/
theorem Sturdy.forgets_removeUnreachable (h : g.Sturdy) (hcurrent : g.Current) {d : Block}
    (hd : d ∈ g.blocks) (hdead : g.isLive d.label = false) : g.removeUnreachable.Forgets d where
  branches ins hins n hn hanswers := by
    obtain ⟨b, hb, hlive, hin⟩ := exists_live_block hins
    have hsucc := h.mem_successors_of_target hb hin hn (h.landing hd hanswers)
    rw [h.isLive_of_successor hcurrent hb hlive hsucc] at hdead
    cases hdead
  ranges s' hs' l hl hanswers := by
    obtain ⟨s, hs, rfl⟩ := List.mem_map.mp hs'
    obtain ⟨hmem, hleft⟩ : l ∈ g.labels
        ∧ (!(g.unreachable.map (·.label)).contains l) = true := by
      rcases hl with hl | hl
      · exact ⟨(h.ranged s hs).1 (List.mem_of_mem_filter hl), (List.mem_filter.mp hl).2⟩
      · exact ⟨(h.ranged s hs).2 (List.mem_of_mem_filter hl), (List.mem_filter.mp hl).2⟩
    obtain ⟨b, hb, rfl⟩ := List.mem_map.mp hmem
    rw [mem_gone_iff hmem, Bool.not_not, h.label_of_answers hb hd (Or.inl rfl) hanswers,
      hdead] at hleft
    cases hleft
  exits r hr hanswers := by
    obtain ⟨ins, hins, huid⟩ := h.recorded.removeUnreachable r hr
    obtain ⟨b, hb, hlive, hin⟩ := exists_live_block hins
    rw [h.label_of_answers hb hd (Or.inr (List.mem_map.mpr ⟨ins, hin, huid⟩)) hanswers,
      hdead] at hlive
    cases hlive

/-- Joining blocks brings no names in. -/
theorem Forgets.merged {b : Block} (h : g.Forgets b) : g.merged.Forgets b where
  branches := by
    rw [merged_code]
    exact h.branches
  ranges s' hs' l hl := by
    rw [merged_eq] at hs'
    split at hs'
    · exact h.ranges s' hs' l hl
    · obtain ⟨s, hs, rfl⟩ := List.mem_map.mp hs'
      exact h.ranges s hs l (hl.imp List.mem_of_mem_filter List.mem_of_mem_filter)
  exits r hr := by
    rw [merged_eq] at hr
    split at hr <;> exact h.exits r hr

theorem Sturdy.forgets_pruned (h : g.Sturdy) (hcurrent : g.Current) {d : Block}
    (hd : d ∈ g.blocks) (hdead : g.isLive d.label = false) : g.pruned.Forgets d := by
  have hsome : ¬g.unreachable.isEmpty = true := fun hnil => by
    have hin : d ∈ g.unreachable := List.mem_filter.mpr ⟨hd, by
      rw [show g.reachable.contains d.label = false from hdead]
      rfl⟩
    rw [List.isEmpty_iff.mp hnil] at hin
    cases hin
  unfold pruned
  rw [if_neg hsome]
  exact (h.forgets_removeUnreachable hcurrent hd hdead).merged

/-- Pruning leaves the boundaries of regions as they are. -/
theorem pruned_regions (g : Graph) :
    g.pruned.spans.map (·.region) = g.spans.map (·.region) := by
  have hmerged (g : Graph) : g.merged.spans.map (·.region) = g.spans.map (·.region) := by
    rw [merged_eq]
    split
    · rfl
    · exact List.map_map
  unfold pruned
  split
  · rfl
  · rw [hmerged]
    exact List.map_map

/-- The code that is left is that of the blocks that are reached. -/
theorem pruned_code (g : Graph) :
    g.pruned.code = (g.blocks.filter fun b => g.isLive b.label).flatMap (·.code) := by
  unfold pruned
  split
  · rename_i hnil
    rw [List.filter_eq_self.mpr fun b hb => ?_]
    · rfl
    · have hall := List.filter_eq_nil_iff.mp (List.isEmpty_iff.mp hnil) b hb
      simpa [isLive] using hall
  · rw [merged_code, code, removeUnreachable_blocks, List.flatMap_map]

end Graph

namespace Work

variable {m : Method} {terminators : List Value} {w : Workbench}

/-- On every graph on the way to a replacement whose edges are up to date, pruning gives the
    labels of the blocks that no edges lead to from the entry or from the start of a handler, in
    stream order. The code of all other blocks stays, in its order. No branch in it, no list of
    the blocks in a region and no recorded exit names a block that is gone or one of its
    instructions, and the edges are those that would be computed afresh. The boundaries of
    regions stay as they were; it is the last stage that moves them. -/
theorem prune_exact (huids : (m.code.map (·.uid)).Nodup) (h : w.graph.Arrives m terminators)
    (hcurrent : w.graph.Current) :
    ∃ (live dead : List Block) (w' : Workbench), prune.run w = .ok (dead.map (·.label)) w'
      ∧ dead.Sublist w.graph.blocks
      ∧ (∀ b ∈ w.graph.blocks, b ∈ dead ↔ ¬w.graph.Reached b.label)
      ∧ live.Sublist w.graph.blocks
      ∧ (∀ b ∈ w.graph.blocks, b ∈ live ↔ w.graph.Reached b.label)
      ∧ w'.graph.code = live.flatMap (·.code)
      ∧ (∀ d ∈ dead, w'.graph.Forgets d)
      ∧ w'.graph.spans.map (·.region) = w.graph.spans.map (·.region)
      ∧ List.Forall₂ (fun b c : Block => c.label = b.label ∧ (∀ l, l ∈ b.succs ↔ l ∈ c.succs)
          ∧ ∀ l, l ∈ b.preds ↔ l ∈ c.preds) w'.graph.blocks w'.graph.connected.blocks := by
  have hsturdy := h.sturdy huids
  obtain ⟨w', hrun, halike⟩ := prune_wired hcurrent.wired hsturdy.followed
  have hgraph : w'.graph = w.graph.pruned := halike.graph
  have hdead : ∀ b ∈ w.graph.blocks, b ∈ w.graph.unreachable ↔ ¬w.graph.Reached b.label := by
    intro b hb
    rw [← hsturdy.isLive_iff hcurrent, Graph.unreachable, List.mem_filter, Graph.isLive,
      Bool.not_eq_true', Bool.not_eq_true]
    exact and_iff_right hb
  have hlive : ∀ b ∈ w.graph.blocks,
      b ∈ w.graph.blocks.filter (fun b => w.graph.isLive b.label) ↔ w.graph.Reached b.label := by
    intro b hb
    rw [List.mem_filter, hsturdy.isLive_iff hcurrent]
    exact and_iff_right hb
  refine ⟨_, _, w', hrun, List.filter_sublist, hdead, List.filter_sublist, hlive, ?_, ?_, ?_, ?_⟩
  · rw [hgraph, Graph.pruned_code]
  · intro d hd
    have hmem := List.mem_of_mem_filter hd
    rw [hgraph]
    refine hsturdy.forgets_pruned hcurrent hmem (Bool.eq_false_iff.mpr fun hl => ?_)
    exact (hdead d hmem).mp hd ((hsturdy.isLive_iff hcurrent _).mp hl)
  · rw [hgraph, Graph.pruned_regions]
  · rw [hgraph]
    refine (hsturdy.current_pruned hcurrent).recomputed fun ins hins => ?_
    rw [Graph.pruned_code] at hins
    obtain ⟨b, hb, hin⟩ := List.mem_flatMap.mp hins
    exact hsturdy.followed ins (List.mem_flatMap.mpr ⟨b, List.mem_of_mem_filter hb, hin⟩)

/-- A guarded range whose first two instructions nothing leads to. -/
def skippedStart : Method where
  code :=
    [{ opcode := some .branch, operand := .value (.int 3), uid := 0 },
     { opcode := some .nop, uid := 1 },
     { opcode := some .nop, uid := 2 },
     { opcode := some .leave, operand := .value (.int 5), uid := 3 },
     { opcode := some .other, uid := 4, mnemonic := .str "endfinally" },
     { opcode := some .other, uid := 5, mnemonic := .str "ret" }]
  regions :=
    [{ kind := .finally, tryStart := .int 1, tryEnd := .int 3, handlerStart := .int 4,
       handlerEnd := .int 4 }]

/-- Its five blocks. -/
def skippedStartGraph : Graph where
  blocks :=
    [{ label := 0, code := [skippedStart.code[0]], succs := [3], isEntry := true },
     { label := 1, code := [skippedStart.code[1], skippedStart.code[2]], succs := [3] },
     { label := 3, code := [skippedStart.code[3]], preds := [0, 1], succs := [5] },
     { label := 4, code := [skippedStart.code[4]] },
     { label := 5, code := [skippedStart.code[5]], preds := [3] }]
  spans := [{ region := skippedStart.regions[0], tryBlocks := [1, 3], handlerBlocks := [4] }]
  exits := [{ uid := 3, region := 0, bounded := true }]
  terminators := Graph.usualTerminators
  fresh := 6

/-- When they are pruned, the region still starts at an instruction that is gone. -/
theorem skippedStart_named : Graph.build skippedStart Graph.usualTerminators = .ok skippedStartGraph
    ∧ ∃ w', prune.run { graph := skippedStartGraph, analysis := {} } = .ok [1] w'
      ∧ skippedStartGraph.blocks[1].Answers 1 ∧ 1 ∉ w'.graph.code.map (·.uid)
      ∧ ∃ s ∈ w'.graph.spans, s.region.tryStart = .int 1 := by
  have hall : (match prune.run { graph := skippedStartGraph, analysis := {} } with
      | .ok dead w' => dead == [1] && !(w'.graph.code.map (·.uid)).contains 1
        && w'.graph.spans.any fun s => s.region.tryStart.integer? == some 1
      | .error _ _ => false) = true := by
    decide +kernel
  refine ⟨rfl, ?_⟩
  cases hrun : prune.run { graph := skippedStartGraph, analysis := {} } with
  | error f w' =>
    rw [hrun] at hall
    cases hall
  | ok dead w' =>
    rw [hrun] at hall
    simp only [Bool.and_eq_true, Bool.not_eq_true', List.any_eq_true, beq_iff_eq,
      List.contains_eq_mem, decide_eq_false_iff_not] at hall
    obtain ⟨⟨rfl, hgone⟩, s, hs, hstart⟩ := hall
    refine ⟨w', rfl, Or.inl rfl, hgone, s, hs, ?_⟩
    cases hvalue : s.region.tryStart <;> rw [hvalue] at hstart <;> cases hstart
    rfl

/-- A branch over two instructions that nothing else leads to. -/
def skipped : Method where
  code :=
    [{ opcode := some .branch, operand := .value (.int 3), uid := 0 },
     { opcode := some .nop, uid := 1 },
     { opcode := some .nop, uid := 2 },
     { opcode := some .other, uid := 3, mnemonic := .str "ret" }]

/-- Its three blocks. -/
def skippedGraph : Graph where
  blocks :=
    [{ label := 0, code := [skipped.code[0]], succs := [3], isEntry := true },
     { label := 1, code := [skipped.code[1], skipped.code[2]], succs := [3] },
     { label := 3, code := [skipped.code[3]], preds := [0, 1] }]
  terminators := Graph.usualTerminators
  fresh := 4

theorem prune_exact_skipped : ∃ (live dead : List Block) (w' : Workbench),
    prune.run { graph := skippedGraph, analysis := {} } = .ok [1] w'
      ∧ dead.map (·.label) = [1] ∧ w'.graph.code = live.flatMap (·.code)
      ∧ ∀ d ∈ dead, w'.graph.Forgets d := by
  have hbuild : Graph.build skipped Graph.usualTerminators = .ok skippedGraph := rfl
  have huids : (skipped.code.map (·.uid)).Nodup := by decide
  have hone : (match prune.run { graph := skippedGraph, analysis := {} } with
      | .ok dead _ => dead
      | .error _ _ => []) = [1] := by decide +kernel
  obtain ⟨hformed, hlinked⟩ := Graph.build_formed hbuild huids
  obtain ⟨live, dead, w', hrun, -, -, -, -, hcode, hforgets, -, -⟩ :=
    prune_exact (w := { graph := skippedGraph, analysis := {} }) huids (.early (.built hbuild))
      (hformed.current hlinked)
  rw [hrun] at hone
  change dead.map (·.label) = [1] at hone
  exact ⟨live, dead, w', hone ▸ hrun, hone, hcode, hforgets⟩

end Work

end Untangle
