/-
  Untangle.Proofs.Graph.Current

  Edges that are up to date: those that are stored with the blocks are those that are
  computed of the blocks as they stand. They are whenever they have just been computed, and
  they are in every well-formed graph whose edges are those of its outline.
-/
import Untangle.Proofs.Graph.Formed

namespace Untangle

namespace Graph

/-- Labels and uids are unique, and the stored edges are those that are computed of the
    blocks. -/
structure Current (g : Graph) : Prop where
  labels_nodup : g.labels.Nodup
  uids_nodup : (g.code.map (·.uid)).Nodup
  succs : ∀ b ∈ g.blocks, ∀ l, l ∈ b.succs ↔ l ∈ g.successors b
  preds : ∀ b ∈ g.blocks, ∀ l, l ∈ b.preds ↔ ∃ c ∈ g.blocks, c.label = l ∧ b.label ∈ g.successors c

/-! ## Successors -/

theorem successors_eq (g : Graph) (b : Block) : g.successors b
    = distinct ((b.last?.elim [] fun last => last.targetUids.filterMap g.landing?)
      ++ if b.last?.all fun last => last.fallsThrough g.terminators then
          (g.nextLabel? b.label).toList else []) := by
  unfold successors
  cases b.last? <;> rfl

/-- A block leads where its last instruction branches, and to the next block if control falls out
    of it. -/
theorem mem_successors {g : Graph} {b : Block} {l : Int} : l ∈ g.successors b
    ↔ (∃ last, b.last? = some last ∧ ∃ n ∈ last.targetUids, g.landing? n = some l)
      ∨ (fallsOut g.terminators b.code = true ∧ g.nextLabel? b.label = some l) := by
  rw [successors_eq, mem_distinct, List.mem_append, List.mem_ite_nil_right, Option.mem_toList]
  refine or_congr ?_ Iff.rfl
  cases b.last? with
  | none => simp
  | some last => simp [List.mem_filterMap]

/-- The label after that of a block is the one that comes next. -/
theorem nextLabel?_of_split {g : Graph} (hnodup : g.labels.Nodup) {before rest : List Block}
    {b : Block} (hsplit : g.blocks = before ++ b :: rest) :
    g.nextLabel? b.label = (rest.map (·.label)).head? := by
  have hlabels : g.labels = before.map (·.label) ++ b.label :: rest.map (·.label) := by
    rw [labels, hsplit, List.map_append, List.map_cons]
  ext next
  rw [nextLabel?, labelAfter?_eq_some hnodup, List.head?_eq_some_iff]
  constructor
  · rintro ⟨front, back, hback⟩
    rw [hlabels] at hback hnodup
    exact ⟨back, (append_cons_inj_of_nodup hnodup hback).2⟩
  · rintro ⟨back, hback⟩
    exact ⟨_, back, by rw [hlabels, hback]⟩

theorem mem_labels_of_landing {g : Graph} {uid l : Int} (h : g.landing? uid = some l) :
    l ∈ g.labels := by
  unfold landing? at h
  split at h
  · rename_i hblock
    cases h
    exact hasBlock_iff.mp hblock
  · obtain ⟨b, hb, rfl⟩ := Option.map_eq_some_iff.mp h
    exact mem_labels_of_mem (List.mem_of_find?_eq_some hb)

theorem mem_of_labelAfter {labels : List Int} {l next : Int}
    (h : labelAfter? l labels = some next) : next ∈ labels := by
  induction labels with
  | nil => cases h
  | cons l' rest ih =>
    unfold labelAfter? at h
    split at h
    · exact List.mem_cons_of_mem _ (List.mem_of_mem_head? h)
    · exact List.mem_cons_of_mem _ (ih h)

/-- A block is computed to lead to blocks only. -/
theorem successors_subset (g : Graph) (b : Block) : g.successors b ⊆ g.labels := by
  intro l hl
  unfold successors at hl
  rw [mem_distinct, List.mem_append] at hl
  rcases hl with hbranch | hfalls
  · split at hbranch
    · obtain ⟨uid, -, hlanding⟩ := List.mem_filterMap.mp hbranch
      exact mem_labels_of_landing hlanding
    · cases hbranch
  · exact mem_of_labelAfter (Option.mem_toList.mp (List.mem_ite_nil_right.mp hfalls).2)

theorem Current.wired {g : Graph} (h : g.Current) : g.Wired where
  labels_nodup := h.labels_nodup
  succs b hb l hl := g.successors_subset b ((h.succs b hb l).mp hl)
  preds b hb c hc hl :=
    (h.preds c hc b.label).mpr ⟨b, hb, rfl, (h.succs b hb c.label).mp hl⟩

/-! ## Edges that are up to date -/

/-- In a well-formed graph the edges of the outline are those that are computed. -/
theorem Formed.current {g : Graph} (h : g.Formed) (hlinked : g.Linked) : g.Current where
  labels_nodup := h.labels_nodup
  uids_nodup := h.uids_nodup
  succs b hb l := (hlinked.succs b hb l).trans (h.mem_successors hb l).symm
  preds b hb l := by
    rw [hlinked.preds b hb l]
    constructor
    · intro hleads
      obtain ⟨c, hc, rfl⟩ := List.mem_map.mp hleads.mem_labels
      exact ⟨c, hc, rfl, (h.mem_successors hc b.label).mpr hleads⟩
    · rintro ⟨c, hc, rfl, hl⟩
      exact (h.mem_successors hc b.label).mp hl

/-- Where the targets of all blocks can be looked up, all are followed. -/
theorem followable_of_checkLasts {g : Graph} (h : g.checkLasts = .ok ()) :
    g.followable = g.blocks := by
  unfold followable
  rw [List.takeWhile_eq_self_iff]
  intro b hb
  have hcheck := forM_eq_ok.mp h b hb
  cases hlast : b.last? with
  | none => rfl
  | some last =>
    rw [hlast] at hcheck
    change last.checkTargets = .ok () at hcheck
    show last.checkTargets.isOk = true
    rw [hcheck]
    rfl

/-- Where a branch lands does not depend on the stored edges. -/
theorem connected_landing (g : Graph) (uid : Int) : g.connected.landing? uid = g.landing? uid := by
  have howner : g.connected.owner? uid = g.owner? uid := by
    simp [owner?, connected, withEdges, List.find?_map, Function.comp_def]
  have hblock : g.connected.hasBlock uid = g.hasBlock uid := by
    rw [Bool.eq_iff_iff, hasBlock_iff, hasBlock_iff, connected_labels]
  rw [landing?, landing?, howner, hblock]

/-- What a block is computed to lead to does not depend on the stored edges. -/
theorem connected_successors (g : Graph) (b : Block) (preds succs : List Int) :
    g.connected.successors { b with preds, succs } = g.successors b := by
  have hlanding : g.connected.landing? = g.landing? := funext (connected_landing g)
  unfold successors Block.last?
  rw [hlanding, nextLabel?, connected_labels]
  rfl

/-- Edges that have just been computed are up to date. -/
theorem connected_current {g : Graph} (hlabels : g.labels.Nodup)
    (huids : (g.code.map (·.uid)).Nodup) (hcheck : g.checkLasts = .ok ()) :
    g.connected.Current := by
  -- Labels and code stay, and those are all that the computed edges depend on.
  have hblocks : g.connected = g.withEdges (g.blocks.map fun b => (b.label, g.successors b)) := by
    rw [connected, followable_of_checkLasts hcheck]
  constructor
  case labels_nodup => rwa [connected_labels]
  case uids_nodup => rwa [connected_code]
  case succs =>
    intro b' hb' l
    rw [hblocks] at hb'
    obtain ⟨b, hb, rfl⟩ := List.mem_map.mp hb'
    rw [connected_successors g b]
    dsimp only
    rw [lookup_map_of_nodup _ _ hlabels hb]
    rfl
  case preds =>
    intro b' hb' l
    rw [hblocks] at hb' ⊢
    obtain ⟨b, hb, rfl⟩ := List.mem_map.mp hb'
    simp only [List.mem_map, List.mem_filter, List.contains_iff_mem]
    constructor
    · rintro ⟨_, ⟨⟨c, hc, rfl⟩, hin⟩, rfl⟩
      refine ⟨_, List.mem_map_of_mem hc, rfl, ?_⟩
      rw [← hblocks, connected_successors g c]
      exact hin
    · rintro ⟨_, hc', rfl, hin⟩
      obtain ⟨c, hc, rfl⟩ := List.mem_map.mp hc'
      rw [← hblocks, connected_successors g c] at hin
      exact ⟨_, ⟨⟨c, hc, rfl⟩, hin⟩, rfl⟩

end Graph

end Untangle
