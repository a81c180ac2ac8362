/-
  Untangle.Proofs.Graph.Loops

  What the backward branches of a graph are. While each block begins with the instruction that
  its label is the uid of, they are the branches of the code that have a target no later than
  themselves, each with each of these targets once (`Graph.FirstLabels.backEdges_exact`). So it is
  for a graph that has just been built (`Graph.build_backEdges`). Once a block has lost its first
  instruction the count can be off, as a branch may name what is left of the block by another
  number, and an empty block by its label.
-/
import Untangle.Edit
import Untangle.Graph.Loops
import Untangle.Proofs.Graph.Build
import Untangle.Proofs.Graph.Merge

namespace Untangle

/-- The branch `u` has the target `t`, which stands no later in the code. -/
def Backward (code : List Instruction) (u t : Int) : Prop :=
  ∃ front ins rest, code = front ++ ins :: rest ∧ ins.isBranch = true ∧ ins.uid = u
    ∧ t ∈ ins.targetUids ∧ t ∈ (front ++ [ins]).map (·.uid)

theorem Instruction.mem_targetUids {ins : Instruction} {t : Int} :
    t ∈ ins.targetUids ↔ ∃ v ∈ ins.aims, v.wholeNumber? = some t := by
  unfold targetUids aims
  cases ins.targets with
  | error e => simp [Except.toOption]
  | ok ts => exact List.mem_filterMap

namespace Graph

variable {g : Graph}

/-! ## Looking up edges -/

/-- An item is found up to a place if it is among the first items. -/
theorem idxOf?_le_iff {labels : List Int} {t : Int} {place : Nat} :
    (labels.idxOf? t).any (· ≤ place) = true ↔ t ∈ labels.take (place + 1) := by
  induction labels generalizing place with
  | nil => simp
  | cons l labels ih =>
    rw [List.take_succ_cons, List.mem_cons, List.idxOf?_cons]
    by_cases hl : l = t
    · subst hl
      simp
    · rw [if_neg (by simpa using hl), Option.any_map, or_iff_right (Ne.symm hl)]
      cases place with
      | zero => simp
      | succ place =>
        rw [← ih]
        simp

theorem mem_backEdgesOf {b : Block} {place : Nat} {e : BackEdge} :
    e ∈ g.backEdgesOf b place ↔ ∃ last, b.last? = some last ∧ last.isBranch = true
      ∧ e.branch = last.uid ∧ e.source = b.label ∧ e.target ∈ b.succs
      ∧ e.target ∈ g.labels.take (place + 1) ∧ e.target ∈ last.targetUids := by
  unfold backEdgesOf labelsBehind
  cases hlast : b.last? with
  | none => simp
  | some last =>
    dsimp only
    by_cases hbranch : last.isBranch = true
    · rw [hbranch]
      simp only [Bool.not_true, Bool.false_eq_true, if_false, List.mem_map, List.mem_filter,
        List.mem_mergeSort, idxOf?_le_iff, List.contains_iff_mem]
      constructor
      · rintro ⟨t, ⟨⟨hsucc, hplace⟩, htarget⟩, rfl⟩
        exact ⟨last, rfl, hbranch, rfl, rfl, hsucc, hplace, htarget⟩
      · rintro ⟨_, hsame, -, hu, hl, hsucc, hplace, htarget⟩
        cases hsame
        refine ⟨e.target, ⟨⟨hsucc, hplace⟩, htarget⟩, ?_⟩
        rw [← hu, ← hl]
    · simp [hbranch]

theorem mem_backEdges {e : BackEdge} :
    e ∈ g.backEdges ↔ ∃ before b after, g.blocks = before ++ b :: after
      ∧ e ∈ g.backEdgesOf b before.length := by
  unfold backEdges
  rw [List.mem_flatMap]
  constructor
  · rintro ⟨⟨b, place⟩, hmem, he⟩
    obtain ⟨hlt, hb⟩ := List.getElem?_eq_some_iff.mp (List.mem_zipIdx_iff_getElem?.mp hmem)
    dsimp only at hlt hb he
    refine ⟨g.blocks.take place, b, g.blocks.drop (place + 1), ?_, ?_⟩
    · rw [← hb, List.getElem_cons_drop, List.take_append_drop]
    · rwa [List.length_take_of_le (Nat.le_of_lt hlt)]
  · rintro ⟨before, b, after, hsplit, he⟩
    refine ⟨(b, before.length), List.mem_zipIdx_iff_getElem?.mpr ?_, he⟩
    rw [hsplit, List.getElem?_append_right (Nat.le_refl _), Nat.sub_self]
    rfl

/-! ## Branches of the code -/

/-- While blocks begin with their own instructions, a label stands where its instruction does. -/
theorem FirstLabels.mem_labels_iff (hfirst : g.FirstLabels) (h : g.Formed) {o : Outline}
    (ho : o <+: g.outline) {t : Int} (ht : t ∈ g.labels) :
    t ∈ o.labels ↔ t ∈ (Outline.code o).map (·.uid) := by
  constructor
  · intro hmem
    obtain ⟨e, he, rfl⟩ := List.mem_map.mp hmem
    obtain ⟨first, rest, hcode, huid⟩ := hfirst e (ho.subset he)
    refine List.mem_map.mpr ⟨first, List.mem_flatMap.mpr ⟨e, he, ?_⟩, huid⟩
    rw [hcode]
    exact List.mem_cons_self
  · intro hmem
    obtain ⟨ins, hins, rfl⟩ := List.mem_map.mp hmem
    obtain ⟨e, he, hin⟩ := List.mem_flatMap.mp hins
    rw [h.own e (ho.subset he) ins hin ht]
    exact List.mem_map_of_mem he

/-- The code around the last instruction of a block. -/
theorem code_around {before after : List Block} {b : Block} {init : List Instruction}
    {last : Instruction} (hsplit : g.blocks = before ++ b :: after)
    (hcode : b.code = init ++ [last]) :
    g.code = (before.flatMap (·.code) ++ init) ++ last :: after.flatMap (·.code) := by
  rw [code, hsplit, List.flatMap_append, List.flatMap_cons, hcode]
  simp only [List.append_assoc, List.singleton_append]

/-- A label stands among those up to a block if its instruction stands up to the block's end. -/
theorem FirstLabels.mem_take_labels_iff (hfirst : g.FirstLabels) (h : g.Formed)
    {before after : List Block} {b : Block} {init : List Instruction} {last : Instruction}
    (hsplit : g.blocks = before ++ b :: after) (hcode : b.code = init ++ [last]) {t : Int}
    (ht : t ∈ g.labels) :
    t ∈ g.labels.take (before.length + 1)
      ↔ t ∈ ((before.flatMap (·.code) ++ init) ++ [last]).map (·.uid) := by
  let upTo : Outline := (before ++ [b]).map fun c => (c.label, c.code)
  have hupTo : upTo <+: g.outline := by
    refine ⟨after.map fun c => (c.label, c.code), ?_⟩
    rw [outline, hsplit, ← List.map_append, List.append_assoc]
    rfl
  have hlabels : g.labels.take (before.length + 1) = upTo.labels := by
    have hlength : before.length + 1 = ((before ++ [b]).map (·.label)).length := by simp
    have hall : g.labels = (before ++ [b]).map (·.label) ++ after.map (·.label) := by
      rw [labels, hsplit, ← List.map_append, List.append_assoc]
      rfl
    rw [hall, hlength, List.take_left, Outline.labels, List.map_map]
    rfl
  have hinstructions : Outline.code upTo = (before.flatMap (·.code) ++ init) ++ [last] := by
    rw [Outline.code, List.flatMap_map, List.flatMap_append, List.flatMap_singleton, hcode,
      List.append_assoc]
  rw [hlabels, hfirst.mem_labels_iff h hupTo ht, hinstructions]

/-- While blocks begin with their own instructions, the backward branches are those of the code. -/
theorem FirstLabels.exists_backEdge_iff (hfirst : g.FirstLabels) (h : g.Formed)
    (hlinked : g.Linked) (u t : Int) :
    (∃ e ∈ g.backEdges, e.branch = u ∧ e.target = t) ↔ Backward g.code u t := by
  constructor
  · rintro ⟨e, he, rfl, rfl⟩
    obtain ⟨before, b, after, hsplit, he⟩ := mem_backEdges.mp he
    obtain ⟨last, hlast, hbranch, hu, -, hsucc, hplace, htarget⟩ := mem_backEdgesOf.mp he
    have hb : b ∈ g.blocks := hsplit ▸ List.mem_append_right _ List.mem_cons_self
    have hlabel : e.target ∈ g.labels := h.mem_labels_of_leads ((hlinked.succs b hb _).mp hsucc)
    obtain ⟨init, hcode⟩ := List.getLast?_eq_some_iff.mp hlast
    exact ⟨_, last, _, code_around hsplit hcode, hbranch, hu.symm, htarget,
      (hfirst.mem_take_labels_iff h hsplit hcode hlabel).mp hplace⟩
  · rintro ⟨front, ins, rest, hcode, hbranch, rfl, htarget, hbefore⟩
    have hins : ins ∈ g.code := hcode ▸ List.mem_append_right _ List.mem_cons_self
    obtain ⟨b, hb, hin⟩ := List.mem_flatMap.mp hins
    obtain ⟨before, after, hsplit⟩ := List.append_of_mem hb
    -- The branch ends its block, so what stands before it is the blocks before and the rest of it.
    have hlast : b.last? = some ins := h.eq_last (mem_outline_of_mem hb) hin (by
      rw [Instruction.endsRun, hbranch, Bool.true_or])
    obtain ⟨init, hinit⟩ := List.getLast?_eq_some_iff.mp hlast
    have hfront : front = before.flatMap (·.code) ++ init :=
      (append_cons_inj_of_nodup (hcode ▸ h.uids_nodup.of_map)
        (hcode.symm.trans (code_around hsplit hinit))).1
    subst hfront
    -- Its target is a label, and the block leads there.
    obtain ⟨v, hv, hnames⟩ := Instruction.mem_targetUids.mp htarget
    obtain ⟨l, hlabel, hl⟩ := h.aims hins hv
    rw [hnames, Option.some.injEq] at hl
    subst hl
    have hleads : g.Leads b.label t := by
      refine ⟨before.map fun c => (c.label, c.code), b.code, after.map fun c => (c.label, c.code),
        ?_, Or.inl ⟨ins, hlast, v, hv, hnames⟩⟩
      rw [outline, hsplit, List.map_append, List.map_cons]
    exact ⟨⟨ins.uid, b.label, t⟩, mem_backEdges.mpr ⟨before, b, after, hsplit,
      mem_backEdgesOf.mpr ⟨ins, hlast, hbranch, rfl, rfl, (hlinked.succs b hb t).mpr hleads,
        (hfirst.mem_take_labels_iff h hsplit hinit hlabel).mpr hbefore, htarget⟩⟩, rfl, rfl⟩

/-! ## Each of them once -/

/-- No successor is listed twice. -/
def Unrepeated (g : Graph) : Prop := ∀ b ∈ g.blocks, b.succs.Nodup

theorem connected_unrepeated (g : Graph) : g.connected.Unrepeated := by
  intro b hb
  obtain ⟨c, -, rfl⟩ := List.mem_map.mp hb
  dsimp only
  cases hlinks : (g.followable.map fun b => (b.label, g.successors b)).lookup c.label with
  | none => exact List.nodup_nil
  | some succs =>
    obtain ⟨d, -, hd⟩ := List.mem_map.mp (mem_of_lookup hlinks)
    rw [Option.getD_some, ← (Prod.mk.inj hd).2]
    exact distinct_nodup _

namespace Unrepeated

/-- Pruning takes successors away or lists them afresh. -/
theorem pruned (h : g.Unrepeated) : g.pruned.Unrepeated := by
  have hremoved : g.removeUnreachable.Unrepeated := by
    intro b hb
    rw [removeUnreachable_blocks] at hb
    obtain ⟨c, hc, rfl⟩ := List.mem_map.mp hb
    exact (h c (List.mem_of_mem_filter hc)).filter _
  unfold Graph.pruned
  split
  · exact h
  · rw [merged_eq]
    split
    · exact hremoved
    · exact connected_unrepeated _

/-- An edit changes code only. -/
theorem apply (h : g.Unrepeated) (e : Edit) : (e.apply g).Unrepeated := by
  have hblock (label : Int) (f : Block → Block) (hf : ∀ b, (f b).succs = b.succs) :
      (g.setBlock label f).Unrepeated := by
    intro b hb
    obtain ⟨c, hc, rfl⟩ := List.mem_map.mp hb
    split
    · rw [hf]
      exact h c hc
    · exact h c hc
  unfold Edit.apply
  split
  · dsimp only
    split
    · exact hblock _ _ fun _ => rfl
    · exact hblock _ _ fun _ => rfl
  · exact h

theorem applyAll (h : g.Unrepeated) (edits : List Edit) :
    (Edit.applyAll g edits).1.Unrepeated := by
  induction edits generalizing g with
  | nil => exact h
  | cons e edits ih => exact ih (h.apply e)

theorem edited (h : g.Unrepeated) (edits : List Edit) : (g.edited edits).graph.Unrepeated := by
  unfold Graph.edited
  dsimp only
  split
  · exact connected_unrepeated _
  · exact h.applyAll _

/-- No branch is listed with one target twice. -/
theorem backEdges_nodup (hunrepeated : g.Unrepeated) (huids : (g.code.map (·.uid)).Nodup) :
    (g.backEdges.map fun e => (e.branch, e.target)).Nodup := by
  have hapart : g.blocks.zipIdx.Pairwise fun x y =>
      List.Disjoint (x.1.code.map (·.uid)) (y.1.code.map (·.uid)) := by
    rw [code, List.map_flatMap] at huids
    have hblocks := (List.nodup_flatMap.mp huids).2
    rw [← List.zipIdx_map_fst 0 g.blocks, List.pairwise_map] at hblocks
    exact hblocks
  rw [backEdges, List.map_flatMap, List.nodup_flatMap]
  constructor
  · -- The targets of one branch are told apart by the edges of its block.
    rintro ⟨b, place⟩ hb
    have hsuccs := hunrepeated b (List.fst_mem_of_mem_zipIdx hb)
    dsimp only
    unfold backEdgesOf labelsBehind
    split
    · exact List.nodup_nil
    · split
      · exact List.nodup_nil
      · rw [List.map_map]
        have hsorted := ((List.mergeSort_perm b.succs (· ≤ ·)).nodup_iff.mpr hsuccs)
        exact ((hsorted.filter _).filter _).map fun t t' heq => (Prod.mk.inj heq).2
  · -- The branches of two blocks are not the same.
    refine hapart.imp fun {x y} hdisjoint => ?_
    rintro p hx hy
    obtain ⟨e, he, rfl⟩ := List.mem_map.mp hx
    obtain ⟨f, hf, heq⟩ := List.mem_map.mp hy
    obtain ⟨last, hlast, -, hu, -⟩ := mem_backEdgesOf.mp he
    obtain ⟨last', hlast', -, hu', -⟩ := mem_backEdgesOf.mp hf
    have hsame : last'.uid = last.uid := by rw [← hu, ← hu', (Prod.mk.inj heq).1]
    exact hdisjoint (List.mem_map_of_mem (List.mem_of_getLast? hlast))
      (List.mem_map.mpr ⟨last', List.mem_of_getLast? hlast', hsame⟩)

end Unrepeated

theorem build_unrepeated {m : Method} {terminators : List Value}
    (hbuild : build m terminators = .ok g) : g.Unrepeated := by
  obtain ⟨ranges, exits, -, rfl⟩ := build_eq_ok.mp hbuild
  exact connected_unrepeated _

/-- While blocks begin with their own instructions, the backward branches are those of the code,
    each with each of its targets that stand no later once. -/
theorem FirstLabels.backEdges_exact (hfirst : g.FirstLabels) (h : g.Formed) (hlinked : g.Linked)
    (hunrepeated : g.Unrepeated) :
    (g.backEdges.map fun e => (e.branch, e.target)).Nodup
      ∧ ∀ p, p ∈ g.backEdges.map (fun e => (e.branch, e.target)) ↔ Backward g.code p.1 p.2 := by
  refine ⟨hunrepeated.backEdges_nodup h.uids_nodup, fun p => ?_⟩
  rw [← hfirst.exists_backEdge_iff h hlinked, List.mem_map]
  exact exists_congr fun e => and_congr_right fun _ => Prod.ext_iff

/-- The backward branches of a graph that has just been built are those of the method, each with
    each of its targets that stand no later once. -/
theorem build_backEdges {m : Method} {terminators : List Value}
    (hbuild : build m terminators = .ok g) (hnodup : (m.code.map (·.uid)).Nodup) :
    (g.backEdges.map fun e => (e.branch, e.target)).Nodup
      ∧ ∀ p, p ∈ g.backEdges.map (fun e => (e.branch, e.target)) ↔ Backward m.code p.1 p.2 := by
  obtain ⟨hformed, hlinked⟩ := build_formed hbuild hnodup
  rw [← build_code hbuild]
  exact (build_firstLabels hbuild).backEdges_exact hformed hlinked (build_unrepeated hbuild)

end Graph

end Untangle
