/-
  Untangle.Proofs.Graph.Headed

  Where the first instruction of a handler still stands, it is the first of its block. A
  region that names it goes on naming the start of its handler.
-/
import Untangle.Proofs.Graph.Build
import Untangle.Proofs.Graph.Kept

namespace Untangle

namespace Graph

/-- Nothing comes in front of the instruction that a handler starts with. -/
def Headed (g : Graph) : Prop :=
  ∀ s ∈ g.spans, ∀ l, s.handlerBlocks.head? = some l → ∀ c, (l, c) ∈ g.outline →
    ∀ ins ∈ c, ins.uid = l → c.head? = some ins

variable {g g' : Graph}

/-- Handlers start where they started, as far as the heads of their blocks go. -/
theorem Headed.of_heads (h : g.Headed)
    (hheads : g'.spans.map (·.handlerBlocks.head?) = g.spans.map (·.handlerBlocks.head?))
    (hcode : ∀ l c', (l, c') ∈ g'.outline → ∀ j ∈ c', j.uid = l →
      (∃ s ∈ g.spans, s.handlerBlocks.head? = some l) → ∃ c, (l, c) ∈ g.outline
        ∧ ∃ ins ∈ c, ins.uid = l ∧ (c.head? = some ins → c'.head? = some j)) : g'.Headed := by
  intro s' hs' l hl c' hc' j hj huid
  have hmem : some l ∈ g.spans.map (·.handlerBlocks.head?) := by
    rw [← hheads, ← hl]
    exact List.mem_map_of_mem hs'
  obtain ⟨s, hs, hhead⟩ := List.mem_map.mp hmem
  obtain ⟨c, hc, ins, hins, huid', himp⟩ := hcode l c' hc' j hj huid ⟨s, hs, hhead⟩
  exact himp (h s hs l hhead c hc ins hins huid')

theorem Headed.congr (h : g.Headed) (houtline : g'.outline = g.outline)
    (hheads : g'.spans.map (·.handlerBlocks.head?) = g.spans.map (·.handlerBlocks.head?)) :
    g'.Headed :=
  h.of_heads hheads fun _ c' hc' j hj huid _ => ⟨c', houtline ▸ hc', j, hj, huid, id⟩

theorem Headed.removeUnreachable (h : g.Headed) (hformed : g.Formed) (hlinked : g.Linked) :
    g.removeUnreachable.Headed := by
  refine h.of_heads (hformed.removeUnreachable_heads hlinked) fun l c' hc' j hj huid _ => ?_
  rw [removeUnreachable_outline] at hc'
  exact ⟨c', List.mem_of_mem_filter hc', j, hj, huid, id⟩

theorem Headed.merged (h : g.Headed) (hformed : g.Formed) : g.merged.Headed := by
  rw [merged_eq]
  split
  · exact h
  · refine Headed.congr (g := g.rejoined) ?_ (connected_outline _) rfl
    refine h.of_heads hformed.rejoined_heads fun l c' hc' j hj huid _ => ?_
    obtain ⟨b, bs, heq, hmem, -, hgone⟩ := hformed.mem_rejoined _ hc'
    cases heq
    have hb := hmem b List.mem_cons_self
    refine ⟨b.code, mem_outline_of_mem hb, j, ?_, huid, fun hhead => ?_⟩
    · -- The instruction is in the block that it gives its number, not in one joined to that.
      have hj' : j ∈ (b :: bs).flatMap (·.code) := hj
      obtain ⟨c, hc, hin⟩ := List.mem_flatMap.mp hj'
      have hlabel : j.uid ∈ g.labels := huid ▸ mem_labels_of_mem hb
      have hown := hformed.own _ (mem_outline_of_mem (hmem c hc)) j hin hlabel
      rcases List.mem_cons.mp hc with rfl | hc
      · exact hin
      · refine absurd ?_ (hgone c hc)
        show c.label ∈ g.rejoined.labels
        have hsame : c.label = b.label := hown.symm.trans huid
        rw [hsame, ← Outline.labels_outline]
        exact List.mem_map_of_mem hc'
    · obtain ⟨rest, hrest⟩ := List.head?_eq_some_iff.mp hhead
      show (b.code ++ _).head? = _
      rw [hrest]
      rfl

theorem Headed.pruned (h : g.Headed) (hformed : g.Formed) (hlinked : g.Linked) :
    g.pruned.Headed := by
  unfold Graph.pruned
  split
  · exact h
  · exact (h.removeUnreachable hformed hlinked).merged (hformed.removeUnreachable hlinked)

/-- Edits that put nothing in front of the first instruction of a handler. -/
theorem Headed.changed {edits : Block → List Edit} {number : Int → Int} (h : g.Headed)
    (hformed : g.Formed) (hsuits : Edit.Suits g edits) (hchanged : Changed g g' edits number)
    (hfront : ∀ b ∈ g.blocks, b.label ∈ g.handlerRoots → ∀ ins, b.code.head? = some ins →
      Edit.asked (edits b) Change.opcode? ins.uid = none) : g'.Headed := by
  refine h.of_heads (by rw [hchanged.reworked.spans]) fun l c' hc' j hj huid hroot => ?_
  have hc := hc'
  rw [hchanged.outline] at hc
  obtain ⟨e, he, heq⟩ := List.mem_map.mp hc
  obtain ⟨b, hb, hlabel, hcode⟩ := exists_block_of_mem he
  cases heq
  change j ∈ e.2.flatMap _ at hj
  show ∃ c, _ ∧ ∃ ins ∈ c, _ ∧ (_ → (e.2.flatMap _).head? = _)
  rw [← hcode, hchanged.blocks hb] at hj ⊢
  rw [← hlabel] at huid hroot ⊢
  obtain ⟨ins, hins, hin⟩ := List.mem_flatMap.mp hj
  have hmild := hsuits.mild b hb ins hins
  rcases Edit.mem_outcome hin with rfl | ⟨op, -, rfl⟩
  · rw [Edit.turned_uid] at huid
    refine ⟨b.code, mem_outline_of_mem hb, ins, hins, huid, fun hhead => ?_⟩
    obtain ⟨s, hs, hl⟩ := hroot
    have hnone := hfront b hb (List.mem_filterMap.mpr ⟨s, hs, hl⟩) ins hhead
    obtain ⟨rest, hrest⟩ := List.head?_eq_some_iff.mp hhead
    rw [hrest, List.flatMap_cons]
    unfold Edit.outcome at hin ⊢
    rw [hnone, List.nil_append] at hin ⊢
    split at hin
    · cases hin
    · rw [if_neg ‹_›]
      rfl
  · have hfresh := hformed.labels_fresh b.label (mem_labels_of_mem hb)
    have hnew := hchanged.fresh ins.uid
    have hsame : number ins.uid = b.label := huid
    omega

/-- A graph that has just been built. -/
theorem build_headed {m : Method} {terminators : List Value} (h : build m terminators = .ok g)
    (hnodup : (m.code.map (·.uid)).Nodup) : g.Headed := by
  obtain ⟨ranges, exits, haccepts, rfl⟩ := build_eq_ok.mp h
  refine Headed.congr (g := cut m terminators ranges exits) ?_ (connected_outline _) rfl
  intro s _ l _ c hc ins hins huid
  have hformed := haccepts.cut_formed hnodup
  have hcut := hc
  rw [cut_outline] at hcut
  obtain ⟨first, rest, hfirst, hlabel⟩ := (blockStarts_places _ _ _).first_of_mem hcut
  have hmem : first ∈ c := by
    rw [show c = first :: rest from hfirst]
    exact List.mem_cons_self
  have hsame : first = ins := List.inj_on_of_nodup_map hformed.uids_nodup (mem_code_of_mem hc hmem)
    (mem_code_of_mem hc hins) (hlabel.trans huid.symm)
  rw [← hsame, show c = first :: rest from hfirst]
  rfl

end Graph

end Untangle
