/-
  Untangle.Proofs.Graph.Joined

  Where runs of blocks lead when they are joined. No branch names a block inside a run, or an
  instruction of one, so branches land where they did. The block that a run becomes leads
  where the last block of the run led, and nowhere that no block of the run led to; so a block
  that only the end of a run led to is led to by the joined run only (`Run.isOnly_first`).
-/
import Untangle.Proofs.Abstract.Forward
import Untangle.Proofs.Graph.Current
import Untangle.Proofs.Graph.Merge

namespace Untangle

namespace Graph

variable {g : Graph} {blocks joined : List Block}

/-! ## Runs -/

theorem Grouped.append (h : Grouped g blocks joined) {more moreJoined : List Block}
    (hmore : Grouped g more moreJoined) : Grouped g (blocks ++ more) (joined ++ moreJoined) := by
  induction h with
  | nil => exact hmore
  | run hrun _ ih =>
    rw [List.append_assoc]
    exact .run hrun ih

/-- What only the first block of a run can be is found in the run that has it. -/
theorem Grouped.find?_label {p : Block → Bool} (h : Grouped g blocks joined)
    (hp : ∀ b bs, GoesWith g b bs → p (glued b bs) = p b ∧ ∀ c ∈ bs, p c = false) :
    (joined.find? p).map (·.label) = (blocks.find? p).map (·.label) := by
  induction h with
  | nil => rfl
  | @run b bs rest joined hrun _ ih =>
    obtain ⟨hglued, hothers⟩ := hp b bs hrun
    have hnone : bs.find? p = none := List.find?_eq_none.mpr fun c hc => by
      rw [hothers c hc]
      exact Bool.false_ne_true
    rw [List.cons_append, List.find?_cons, List.find?_cons, List.find?_append, hglued, hnone,
      Option.none_or]
    cases p b with
    | true => rfl
    | false => exact ih

/-- The block where the method is entered is the first of its run. -/
theorem rejoined_entry?_label (g : Graph) :
    g.rejoined.entry?.map (·.label) = g.entry?.map (·.label) := by
  refine g.joinedBlocks_grouped.find?_label fun b bs hrun => ⟨rfl, fun c hc => ?_⟩
  obtain ⟨front, back, rfl⟩ := List.append_of_mem hc
  exact (hrun front c back rfl).1

namespace Run

/-- What is left of the labels up to one ends with the first label of its run. -/
theorem last_left (r : g.Run) (hnodup : g.labels.Nodup) {front back : List Int} {l : Int}
    (hsplit : g.labels = front ++ l :: back) (hl : l ∈ r.labels) :
    ((front ++ [l]).filter fun l => g.rejoined.labels.contains l).getLast?
      = some r.first.label := by
  obtain ⟨p, q, hpq⟩ := List.append_of_mem hl
  have hrun : (p ++ [l]) ++ q = r.first.label :: r.others.map (·.label) := by
    rw [List.append_assoc, List.singleton_append, ← hpq]
    rfl
  obtain ⟨others, hothers⟩ : ∃ others, p ++ [l] = r.first.label :: others := by
    cases p with
    | nil => exact ⟨[], by rw [(List.cons.inj hrun).1]; rfl⟩
    | cons l' p => exact ⟨p ++ [l], by rw [← (List.cons.inj hrun).1]; rfl⟩
  have hfront : front = r.before.map (·.label) ++ p := by
    have hlabels : g.labels
        = (r.before.map (·.label) ++ p) ++ l :: (q ++ r.rest.map (·.label)) := by
      rw [Graph.labels, r.split, List.map_append, List.map_append]
      show _ ++ (r.labels ++ _) = _
      rw [hpq]
      simp
    rw [hsplit] at hnodup hlabels
    exact (append_cons_inj_of_nodup hnodup hlabels).1
  have hgone : others.filter (fun l => g.rejoined.labels.contains l) = [] := by
    refine List.filter_eq_nil_iff.mpr fun l' hl' => ?_
    have hin : l' ∈ r.others.map (·.label) := by
      rw [hothers, List.cons_append] at hrun
      exact (List.cons.inj hrun).2 ▸ List.mem_append_left _ hl'
    obtain ⟨c, hc, rfl⟩ := List.mem_map.mp hin
    exact fun hkept => r.not_left hnodup hc (List.contains_iff_mem.mp hkept)
  have hkept : g.rejoined.labels.contains r.first.label = true :=
    List.contains_iff_mem.mpr r.first_left
  rw [hfront, List.append_assoc, hothers, List.filter_append, List.filter_cons_of_pos hkept,
    hgone, List.getLast?_concat]

/-- A label is in one run only. -/
theorem first_unique (r r' : g.Run) (hnodup : g.labels.Nodup) {l : Int} (hl : l ∈ r.labels)
    (hl' : l ∈ r'.labels) : r.first.label = r'.first.label := by
  have hmem : l ∈ g.labels := by
    rw [Graph.labels, r.split, List.map_append, List.map_append]
    exact List.mem_append_right _ (List.mem_append_left _ hl)
  obtain ⟨front, back, hsplit⟩ := List.append_of_mem hmem
  exact Option.some.inj ((r.last_left hnodup hsplit hl).symm.trans (r'.last_left hnodup hsplit hl'))

/-- A block that is left is what has become of a run. -/
theorem exists_of_joined (hnodup : g.labels.Nodup) {j : Block} (hj : j ∈ g.rejoined.blocks) :
    ∃ r : g.Run, j = glued r.first r.others := by
  have hleft : j.label ∈ g.rejoined.labels := mem_labels_of_mem hj
  obtain ⟨r, hr⟩ := exists_of_mem ((rejoined_labels_sublist g).subset hleft)
  refine ⟨r, eq_of_label (hnodup.sublist (rejoined_labels_sublist g)) hj ?_
    (r.eq_first hnodup hr hleft)⟩
  show _ ∈ g.joinedBlocks
  rw [r.joined]
  exact List.mem_append_right _ List.mem_cons_self

/-- Control comes in at the start of a run only. -/
theorem not_root (r : g.Run) (hnodup : g.labels.Nodup)
    (hrows : ∀ s ∈ g.spans, s.handlerBlocks <:+: g.labels) {c : Block} (hc : c ∈ r.others) :
    c.label ∉ g.roots := by
  intro hroot
  refine r.not_left hnodup hc ?_
  rcases List.mem_append.mp hroot with hentry | hhandler
  · obtain ⟨b, hb, hlabel⟩ := Option.map_eq_some_iff.mp
      (g.rejoined_entry?_label.trans (Option.mem_toList.mp hentry))
    rw [← hlabel]
    exact mem_labels_of_mem (List.mem_of_find?_eq_some hb)
  · obtain ⟨s, hs, hhead⟩ := List.mem_filterMap.mp hhandler
    exact mem_rejoined_of_head hnodup hs (hrows s hs) hhead

end Run

/-! ## Where runs lead -/

/-- What a branch names lands where it did. -/
theorem rejoined_landing {n : Int} (hn : n ∈ g.targeted) :
    g.rejoined.landing? n = g.landing? n := by
  have howner : g.rejoined.owner? n = g.owner? n := by
    refine g.joinedBlocks_grouped.find?_label fun b bs hrun => ?_
    have hothers : ∀ c ∈ bs, (c.code.any fun ins => ins.uid == n) = false := by
      intro c hc
      obtain ⟨front, back, rfl⟩ := List.append_of_mem hc
      rw [List.any_eq_false]
      intro ins hins huid
      exact (hrun front c back rfl).2.2.2.2.1 ins hins (eq_of_beq huid ▸ hn)
    refine ⟨?_, hothers⟩
    show (b.code ++ bs.flatMap (·.code)).any _ = _
    have hnone : (bs.flatMap (·.code)).any (fun ins => ins.uid == n) = false := by
      rw [List.any_flatMap, List.any_eq_false]
      exact fun c hc => Bool.eq_false_iff.mp (hothers c hc)
    rw [List.any_append, hnone, Bool.or_false]
  have hblock : g.rejoined.hasBlock n = g.hasBlock n := by
    rw [Bool.eq_iff_iff, hasBlock_iff, hasBlock_iff]
    exact ⟨fun h => (rejoined_labels_sublist g).subset h,
      fun h => mem_rejoined_of_targeted g h hn⟩
  rw [landing?, landing?, howner, hblock]

namespace Run

/-- The blocks of a run are blocks of the graph. -/
theorem mem_blocks (r : g.Run) {y : Block} (hy : y ∈ r.first :: r.others) : y ∈ g.blocks := by
  rw [r.split]
  exact List.mem_append_right _ (List.mem_append_left _ hy)

theorem mem_targeted (r : g.Run) {y : Block} (hy : y ∈ r.first :: r.others) {last : Instruction}
    (hlast : y.last? = some last) {n : Int} (hn : n ∈ last.targetUids) : n ∈ g.targeted :=
  List.mem_flatMap.mpr ⟨last, List.mem_flatMap.mpr
    ⟨y, r.mem_blocks hy, List.mem_of_getLast? hlast⟩, hn⟩

/-- The same label comes behind a run as behind its last block. -/
theorem nextLabel?_eq (r : g.Run) (hnodup : g.labels.Nodup) {p : List Block} {x : Block}
    (hpx : r.first :: r.others = p ++ [x]) :
    g.rejoined.nextLabel? (glued r.first r.others).label = g.nextLabel? x.label := by
  have hsplit : g.blocks = (r.before ++ p) ++ x :: r.rest := by
    rw [r.split, hpx]
    simp
  rw [nextLabel?_of_split hnodup hsplit, nextLabel?_of_split
    (hnodup.sublist (rejoined_labels_sublist g)) (show g.rejoined.blocks = _ from r.joined)]
  exact r.back.labels_head

/-- A run leads nowhere that none of its blocks led to. -/
theorem exists_successor (r : g.Run) (hnodup : g.labels.Nodup) {l : Int}
    (hl : l ∈ g.rejoined.successors (glued r.first r.others)) :
    ∃ y ∈ r.first :: r.others, l ∈ g.successors y := by
  rcases mem_successors.mp hl with ⟨last, hlast, n, hn, hland⟩ | ⟨hfalls, hnext⟩
  · -- The last instruction of the run is the last of some block of it.
    have hlast' : ((r.first :: r.others).flatMap (·.code)).getLast? = some last := hlast
    rw [List.getLast?_flatMap] at hlast'
    obtain ⟨y, hy, hylast⟩ := List.exists_of_findSome?_eq_some hlast'
    have hmem := List.mem_reverse.mp hy
    refine ⟨y, hmem, mem_successors.mpr (Or.inl ⟨last, hylast, n, hn, ?_⟩)⟩
    rw [← rejoined_landing (r.mem_targeted hmem hylast hn), hland]
  · obtain ⟨p, x, hpx⟩ : ∃ p x, r.first :: r.others = p ++ [x] :=
      ⟨_, _, (List.dropLast_append_getLast (List.cons_ne_nil _ _)).symm⟩
    rw [r.nextLabel?_eq hnodup hpx] at hnext
    refine ⟨x, hpx ▸ List.mem_append_right _ (List.mem_singleton_self _),
      mem_successors.mpr (Or.inr ⟨?_, hnext⟩)⟩
    have hcode : (glued r.first r.others).code = p.flatMap (·.code) ++ x.code := by
      show (r.first :: r.others).flatMap (·.code) = _
      rw [hpx, List.flatMap_append, List.flatMap_singleton]
    change fallsOut g.terminators _ = true at hfalls
    unfold fallsOut at hfalls ⊢
    rw [hcode, List.getLast?_append] at hfalls
    cases hx : x.code.getLast? with
    | none => rfl
    | some last =>
      rw [hx] at hfalls
      exact hfalls

/-- A run leads where its last block led. -/
theorem successor_of_last (r : g.Run) (hnodup : g.labels.Nodup) {p : List Block} {x : Block}
    (hpx : r.first :: r.others = p ++ [x]) {l : Int} (hl : l ∈ g.successors x) :
    l ∈ g.rejoined.successors (glued r.first r.others) := by
  have hx : x ∈ r.first :: r.others := hpx ▸ List.mem_append_right _ (List.mem_singleton_self _)
  rcases mem_successors.mp hl with ⟨last, hlast, n, hn, hland⟩ | ⟨hfalls, hnext⟩
  · refine mem_successors.mpr (Or.inl ⟨last, ?_, n, hn, ?_⟩)
    · show ((r.first :: r.others).flatMap (·.code)).getLast? = some last
      rw [hpx, List.flatMap_append, List.flatMap_singleton, List.getLast?_append,
        show x.code.getLast? = some last from hlast]
      rfl
    · rw [rejoined_landing (r.mem_targeted hx hlast hn), hland]
  · refine mem_successors.mpr (Or.inr ⟨r.goes.falls hpx hfalls, ?_⟩)
    rw [r.nextLabel?_eq hnodup hpx, hnext]

/-- What only the end of a run led to is led to by the joined run only. -/
theorem isOnly_first (r : g.Run) (hcurrent : g.Current) (hjoined : g.rejoined.connected.Current)
    {p : List Block} {x : Block} (hpx : r.first :: r.others = p ++ [x]) {c c' : Block}
    (hc : c ∈ g.blocks) (hc' : c' ∈ g.rejoined.connected.blocks) (hlabel : c'.label = c.label)
    (honly : Forward.isOnly x.label c.preds = true) :
    Forward.isOnly r.first.label c'.preds = true := by
  have hnodup := hcurrent.labels_nodup
  have hx : x ∈ r.first :: r.others := hpx ▸ List.mem_append_right _ (List.mem_singleton_self _)
  obtain ⟨hpred, hall⟩ := Forward.isOnly_iff.mp honly
  refine Forward.isOnly_iff.mpr ⟨?_, fun l hl => ?_⟩
  · -- The end of the run leads to the block, so the joined run does.
    obtain ⟨y, hy, hyx, hleads⟩ := (hcurrent.preds c hc _).mp hpred
    rw [eq_of_label hnodup hy (r.mem_blocks hx) hyx] at hleads
    have hjoin := r.successor_of_last hnodup hpx hleads
    have hmem : glued r.first r.others ∈ g.rejoined.blocks := by
      show _ ∈ g.joinedBlocks
      rw [r.joined]
      exact List.mem_append_right _ List.mem_cons_self
    refine (hjoined.preds c' hc' _).mpr ⟨_, List.mem_map_of_mem hmem, rfl, ?_⟩
    rw [connected_successors, hlabel]
    exact hjoin
  · obtain ⟨j', hj', rfl, hleads⟩ := (hjoined.preds c' hc' l).mp hl
    obtain ⟨j, hj, rfl⟩ := List.mem_map.mp hj'
    rw [connected_successors, hlabel] at hleads
    obtain ⟨r', rfl⟩ := exists_of_joined hnodup hj
    obtain ⟨y, hy, hyc⟩ := r'.exists_successor hnodup hleads
    have hyx : y.label = x.label :=
      hall _ ((hcurrent.preds c hc _).mpr ⟨y, r'.mem_blocks hy, rfl, hyc⟩)
    have hxr' : x.label ∈ r'.labels := hyx ▸ List.mem_map_of_mem hy
    exact r'.first_unique r hnodup hxr' (List.mem_map_of_mem hx)

end Run

/-- Edges are up to date when blocks are joined. -/
theorem Current.merged (h : g.Current) (hcheck : ∀ ins ∈ g.code, ins.checkTargets = .ok ()) :
    g.merged.Current := by
  rw [merged_eq]
  split
  · exact h
  · refine connected_current (h.labels_nodup.sublist g.rejoined_labels_sublist) ?_ ?_
    · rw [rejoined_code]
      exact h.uids_nodup
    · exact checkLasts_of_code (by rwa [rejoined_code])

end Graph

end Untangle
