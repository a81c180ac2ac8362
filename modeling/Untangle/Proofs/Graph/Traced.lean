/-
  Untangle.Proofs.Graph.Traced

  Where the blocks of a graph come from. Whatever the stages do, each block is a stretch of
  blocks of the first graph, in the same order, and each instruction of the stretch has been
  rewritten in place (`Instruction.Rewritten`). `Graph.Traced` says so, together with what makes
  it carry on: where control falls out of a block, the block that came next is still next. From
  that it follows that no block is lost that control still reaches (`Traced.reached`).
-/
import Untangle.Proofs.Graph.Build
import Untangle.Proofs.Graph.Merge
import Untangle.Proofs.Graph.Rewritten

namespace Untangle

/-- The span without the blocks whose labels are not among some. -/
def Span.within (s : Span) (left : List Int) : Span :=
  { s with
    tryBlocks := s.tryBlocks.filter left.contains
    handlerBlocks := s.handlerBlocks.filter left.contains }

namespace Graph

/-- Blocks of a graph that have become one block. -/
structure Stretch where
  first : Int × List Instruction
  more : Outline := []

namespace Stretch

/-- The blocks of a stretch. -/
def blocks (r : Stretch) : Outline := r.first :: r.more

/-- The label of a stretch is that of its first block. -/
def label (r : Stretch) : Int := r.first.1

/-- The instructions of a stretch. -/
def code (r : Stretch) : List Instruction := Outline.code r.blocks

/-- The block that a stretch has become, for what takes the place of each instruction. -/
def image (f : Instruction → List Instruction) (r : Stretch) : Int × List Instruction :=
  (r.label, r.code.flatMap f)

/-- Stretches that become one. -/
def glued (r : Stretch) (rs : List Stretch) : Stretch :=
  { r with more := r.more ++ rs.flatMap blocks }

@[simp] theorem glued_blocks (r : Stretch) (rs : List Stretch) :
    (glued r rs).blocks = (r :: rs).flatMap blocks := rfl

@[simp] theorem glued_label (r : Stretch) (rs : List Stretch) : (glued r rs).label = r.label := rfl

@[simp] theorem glued_code (r : Stretch) (rs : List Stretch) :
    (glued r rs).code = (r :: rs).flatMap code := by
  rw [code, glued_blocks, Outline.code, List.flatMap_assoc]
  rfl

end Stretch

/-- Two labels lie in the same ranges of all regions. -/
def Together (g : Graph) (a b : Int) : Prop :=
  ∀ s ∈ g.spans, (a ∈ s.tryBlocks ↔ b ∈ s.tryBlocks) ∧ (a ∈ s.handlerBlocks ↔ b ∈ s.handlerBlocks)

theorem sameRegions_iff {g : Graph} {a b : Int} :
    g.sameRegions a b = true ↔ g.Together a b := by
  rw [sameRegions, List.all_eq_true]
  refine forall₂_congr fun s _ => ?_
  have hcontains (labels : List Int) :
      labels.contains a = labels.contains b ↔ (a ∈ labels ↔ b ∈ labels) := by
    rw [Bool.eq_iff_iff, List.contains_iff_mem, List.contains_iff_mem]
  rw [Bool.and_eq_true, beq_iff_eq, beq_iff_eq, hcontains, hcontains]

theorem Together.trans {g : Graph} {a b c : Int} (h : g.Together a b) (h' : g.Together b c) :
    g.Together a c := fun s hs =>
  ⟨(h s hs).1.trans (h' s hs).1, (h s hs).2.trans (h' s hs).2⟩

open Instruction (settled)

/-- The second graph is made of stretches of the first one, with each instruction rewritten in
    place. -/
structure Traced (g₀ g : Graph) (T : List Stretch) (f : Instruction → List Instruction) :
    Prop where
  formed : g.Formed
  linked : g.Linked
  fresh : g₀.fresh ≤ g.fresh
  terminators : g.terminators = g₀.terminators
  roots : g.roots = g₀.roots
  sublist : (T.flatMap Stretch.blocks).Sublist g₀.outline
  outline : g.outline = T.map (Stretch.image f)
  rewritten : ∀ r ∈ T, ∀ ins ∈ r.code, ins.Rewritten g₀.fresh (f ins)
  straight : ∀ r ∈ T, ∀ ins ∈ r.code.dropLast, ins.endsRun g₀.terminators = false
  /-- Where control falls out of a block, the block that came next is still next. -/
  next : ∀ before₀ rest₀ before rest e last l, g₀.outline = before₀ ++ e :: rest₀ →
    T.flatMap Stretch.blocks = before ++ e :: rest → e.2.getLast? = some last →
    (settled f last).fallsThrough g₀.terminators = true →
    (Outline.labels rest₀).head? = some l → (Outline.labels rest).head? = some l
  spans : g.spans = g₀.spans.map fun s => s.within g.labels
  /-- The blocks of a stretch lie in the same regions. -/
  regions : ∀ r ∈ T, ∀ e ∈ r.blocks, g₀.Together r.label e.1

namespace Traced

variable {g₀ g : Graph} {T : List Stretch} {f : Instruction → List Instruction}

/-! ## Stretches and blocks -/

theorem mem_outline₀ (h : Traced g₀ g T f) {r : Stretch} (hr : r ∈ T)
    {e : Int × List Instruction} (he : e ∈ r.blocks) : e ∈ g₀.outline :=
  h.sublist.subset (List.mem_flatMap.mpr ⟨r, hr, he⟩)

theorem mem_code₀ (h : Traced g₀ g T f) {r : Stretch} (hr : r ∈ T) {ins : Instruction}
    (hins : ins ∈ r.code) : ins ∈ g₀.code := by
  obtain ⟨e, he, hin⟩ := List.mem_flatMap.mp hins
  exact mem_code_of_mem (h.mem_outline₀ hr he) hin

theorem labels (h : Traced g₀ g T f) : g.labels = T.map Stretch.label := by
  rw [← Outline.labels_outline, h.outline, Outline.labels, List.map_map]
  rfl

theorem labels_sublist (h : Traced g₀ g T f) : g.labels.Sublist g₀.labels := by
  have hfirst : (T.map Stretch.first).Sublist (T.flatMap Stretch.blocks) := by
    generalize T = T
    induction T with
    | nil => exact List.Sublist.refl _
    | cons r T ih => exact (ih.trans (List.sublist_append_right _ _)).cons_cons _
  have := (hfirst.trans h.sublist).map (·.1)
  rw [List.map_map] at this
  rw [h.labels, ← Outline.labels_outline]
  exact this

/-- The code of the graph. -/
theorem code (h : Traced g₀ g T f) : g.code = (T.flatMap Stretch.code).flatMap f := by
  rw [← Outline.code_outline, h.outline, Outline.code, List.flatMap_map, List.flatMap_assoc]
  rfl

/-- Of blocks in a row those that are left are in a row. -/
theorem run_left (h : Traced g₀ g T f) (h₀ : g₀.Formed) {labels : List Int}
    (hrun : labels <:+: g₀.labels) :
    labels.filter g.labels.contains <:+: g.labels := by
  have hself := filter_mem_of_sublist h₀.labels_nodup h.labels_sublist
  have := hrun.filter g.labels.contains
  rwa [hself] at this

/-- An instruction that is left comes from one in whose place it stands. -/
theorem exists_source (h : Traced g₀ g T f) {j : Instruction} (hj : j ∈ g.code) :
    ∃ r ∈ T, ∃ ins ∈ r.code, j ∈ f ins ∧ ins.Rewritten g₀.fresh (f ins) := by
  rw [h.code] at hj
  obtain ⟨ins, hins, hj⟩ := List.mem_flatMap.mp hj
  obtain ⟨r, hr, hin⟩ := List.mem_flatMap.mp hins
  exact ⟨r, hr, ins, hin, hj, h.rewritten r hr ins hin⟩

/-- The code of a stretch ends as what its last instruction has become ends. -/
theorem image_last (h : Traced g₀ g T f) {r : Stretch} (hr : r ∈ T) {last : Instruction}
    (hlast : r.code.getLast? = some last) :
    (last.endsRun g₀.terminators = true → (r.image f).2.getLast? = some (settled f last))
      ∧ (last.endsRun g₀.terminators = false →
        ∀ j ∈ (r.image f).2, j.endsRun g₀.terminators = false) := by
  obtain ⟨init, hinit⟩ := List.getLast?_eq_some_iff.mp hlast
  have hmem : last ∈ r.code := List.mem_of_getLast? hlast
  refine ⟨fun hends => ?_, fun hstraight j hj => ?_⟩
  · obtain ⟨front, j, hj, -⟩ := (h.rewritten r hr last hmem).last hends
    rw [Stretch.image, hinit, List.flatMap_append, List.flatMap_singleton, hj,
      ← List.append_assoc, List.getLast?_concat, Instruction.settled, hj, List.getLast?_concat]
    rfl
  · obtain ⟨ins, hins, hj⟩ := List.mem_flatMap.mp hj
    refine (h.rewritten r hr ins hins).straight ?_ j hj
    rw [hinit] at hins
    rcases List.mem_append.mp hins with hin | hin
    · exact h.straight r hr ins (by rw [hinit, List.dropLast_concat]; exact hin)
    · rw [List.mem_singleton.mp hin]
      exact hstraight

/-- What a branch names that the last instruction of a stretch has become comes after it. -/
theorem leads_of_aims (h : Traced g₀ g T f) {r : Stretch} (hr : r ∈ T) {last : Instruction}
    (hlast : r.code.getLast? = some last) {t : Value} (ht : t ∈ (settled f last).aims) {l : Int}
    (hl : t.wholeNumber? = some l) : g.Leads r.label l := by
  have hends : last.endsRun g₀.terminators = true := by
    by_contra hnot
    have hstraight := (h.rewritten r hr last (List.mem_of_getLast? hlast)).settled_straight
      (Bool.eq_false_iff.mpr hnot)
    rw [Instruction.endsRun, Instruction.isBranch_of_mem_aims ht] at hstraight
    cases hstraight
  have he : r.image f ∈ g.outline := h.outline ▸ List.mem_map_of_mem hr
  obtain ⟨before, after, hsplit⟩ := List.append_of_mem he
  exact ⟨before, _, after, hsplit, Or.inl ⟨_, (h.image_last hr hlast).1 hends, t, ht, hl⟩⟩

/-- Where the last instruction of a stretch has become one that control falls out of, the next
    stretch comes after it. -/
theorem leads_of_falls (h : Traced g₀ g T f) {before after : List Stretch} {r r' : Stretch}
    (hsplit : T = before ++ r :: r' :: after) {last : Instruction}
    (hlast : r.code.getLast? = some last)
    (hfalls : (settled f last).fallsThrough g₀.terminators = true) :
    g.Leads r.label r'.label := by
  have hr : r ∈ T := hsplit ▸ List.mem_append_right _ List.mem_cons_self
  refine ⟨before.map (Stretch.image f), (r.image f).2, (r' :: after).map (Stretch.image f), ?_,
    Or.inr ⟨?_, rfl⟩⟩
  · rw [h.outline, hsplit, List.map_append]
    rfl
  · obtain ⟨hends, hstraight⟩ := h.image_last hr hlast
    rw [h.terminators, fallsOut]
    cases hlast' : last.endsRun g₀.terminators with
    | true =>
      rw [hends hlast']
      exact hfalls
    | false =>
      cases hl : (r.image f).2.getLast? with
      | none => rfl
      | some j =>
        have := hstraight hlast' j (List.mem_of_getLast? hl)
        rw [Instruction.endsRun, Bool.or_eq_false_iff, Bool.not_eq_false'] at this
        exact this.2

/-- Labels that lie in the same regions did so from the start. -/
theorem together (h : Traced g₀ g T f) {r r' : Stretch} (hr : r ∈ T) (hr' : r' ∈ T)
    (htogether : g.Together r.label r'.label) : g₀.Together r.label r'.label := by
  have hmem (r : Stretch) (hr : r ∈ T) : r.label ∈ g.labels :=
    h.labels ▸ List.mem_map_of_mem hr
  intro s hs
  have := htogether (s.within g.labels) (h.spans ▸ List.mem_map_of_mem hs)
  simpa [Span.within, hmem r hr, hmem r' hr'] using this

/-! ## The first graph -/

/-- A graph is made of its own blocks. -/
theorem start (h : g.Formed) (hlinked : g.Linked)
    (hranged : ∀ s ∈ g.spans, s.tryBlocks ⊆ g.labels ∧ s.handlerBlocks ⊆ g.labels) :
    Traced g g (g.outline.map fun e => ⟨e, []⟩) (fun ins => [ins]) := by
  have hblocks : (g.outline.map fun e => (⟨e, []⟩ : Stretch)).flatMap Stretch.blocks
      = g.outline := by
    rw [List.flatMap_map]
    exact List.flatMap_singleton' _
  have hcode (e : Int × List Instruction) : (⟨e, []⟩ : Stretch).code = e.2 :=
    List.append_nil _
  have hmem : ∀ r ∈ g.outline.map fun e => (⟨e, []⟩ : Stretch),
      ∃ e ∈ g.outline, r = ⟨e, []⟩ := fun r hr => by
    obtain ⟨e, he, rfl⟩ := List.mem_map.mp hr
    exact ⟨e, he, rfl⟩
  refine ⟨h, hlinked, Int.le_refl _, rfl, rfl, ?_, ?_, ?_, ?_, ?_, ?_, ?_⟩
  · rw [hblocks]
  · rw [List.map_map]
    refine (List.map_id'' (fun e => ?_) _).symm
    show (e.1, (Stretch.code ⟨e, []⟩).flatMap fun ins => [ins]) = e
    rw [hcode, List.flatMap_singleton']
  · exact fun _ _ ins _ => .kept
  · intro r hr ins hins
    obtain ⟨e, he, rfl⟩ := hmem r hr
    rw [hcode] at hins
    exact h.straight e he ins hins
  · intro before₀ rest₀ before rest e last l hsplit₀ hsplit _ _ hl
    rw [hblocks] at hsplit
    obtain ⟨-, hrest⟩ := split_unique (a := e.1) (c := e.2) h.outline_nodup hsplit₀ hsplit
    rwa [← hrest]
  · have hself : ∀ labels ⊆ g.labels, labels.filter g.labels.contains = labels :=
      fun labels hsub => List.filter_eq_self.mpr fun l hl => by simpa using hsub hl
    conv_lhs => rw [← List.map_id' g.spans]
    refine List.map_congr_left fun s hs => ?_
    obtain ⟨htries, hhandlers⟩ := hranged s hs
    rw [Span.within, hself _ htries, hself _ hhandlers]
  · intro r hr e he
    obtain ⟨e', he', rfl⟩ := hmem r hr
    obtain rfl := List.mem_singleton.mp he
    exact fun s _ => ⟨Iff.rfl, Iff.rfl⟩

/-! ## Blocks left out -/

/-- Without the blocks out of reach the others are made of the same stretches. -/
theorem removeUnreachable (h : Traced g₀ g T f) :
    Traced g₀ g.removeUnreachable (T.filter fun r => g.isLive r.label) f where
  formed := h.formed.removeUnreachable h.linked
  linked := h.formed.removeUnreachable_linked h.linked
  fresh := h.fresh
  terminators := h.terminators
  roots := (h.formed.removeUnreachable_roots h.linked).trans h.roots
  sublist := (List.filter_sublist.flatMap _).trans h.sublist
  outline := by
    rw [removeUnreachable_outline, h.outline, Outline.only, List.filter_map]
    rfl
  rewritten r hr := h.rewritten r (List.mem_of_mem_filter hr)
  straight r hr := h.straight r (List.mem_of_mem_filter hr)
  next before₀ rest₀ before rest e last l hsplit₀ hsplit hlast hfalls hl := by
    obtain ⟨front, r, back, init, more, hT, hr, -, rfl⟩ := flatMap_eq_append_cons hsplit
    obtain ⟨front', behind, hT', -, hbehind⟩ := List.filter_eq_append_iff.mp hT
    obtain ⟨skipped, back', rfl, hskipped, hlive, rfl⟩ := List.filter_eq_cons_iff.mp hbehind
    have hwhole : T.flatMap Stretch.blocks = ((front' ++ skipped).flatMap Stretch.blocks ++ init)
        ++ e :: (more ++ back'.flatMap Stretch.blocks) := by
      rw [hT', ← List.append_assoc, List.flatMap_append, List.flatMap_cons, hr]
      simp
    have hnext := h.next _ _ _ _ _ _ _ hsplit₀ hwhole hlast hfalls hl
    cases more with
    | cons e' more => exact hnext
    | nil =>
      -- The stretch ends here, and what comes next is reached from it.
      cases back' with
      | nil => exact hnext
      | cons r' back' =>
        have hlabel : r'.label = l := Option.some.inj hnext
        have hcode : r.code.getLast? = some last := by
          rw [Stretch.code, hr, Outline.code_append, Outline.code_cons, Outline.code_nil,
            List.append_nil, List.getLast?_append, hlast]
          rfl
        have hsplit' : T = (front' ++ skipped) ++ r :: r' :: back' := by
          rw [hT', List.append_assoc]
        have hleads := h.leads_of_falls hsplit' hcode hfalls
        have hlive' := h.formed.isLive_of_leads h.linked hlive hleads
        rw [List.filter_cons_of_pos (by exact hlive')]
        exact congrArg some hlabel
  spans := by
    show g.spans.map _ = _
    rw [h.spans, List.map_map]
    refine List.map_congr_left fun s _ => ?_
    have hfilter (labels : List Int) : (labels.filter g.labels.contains).filter
        (fun l => !(g.unreachable.map (·.label)).contains l)
          = labels.filter g.removeUnreachable.labels.contains := by
      rw [List.filter_filter]
      refine List.filter_congr fun l _ => ?_
      rw [removeUnreachable_labels, Bool.eq_iff_iff, Bool.and_eq_true, List.contains_iff_mem,
        List.contains_iff_mem, List.mem_filter, and_comm]
      exact and_congr_right fun hl => by rw [mem_gone_iff hl, Bool.not_not]
    show Span.without (Span.within s g.labels) _ = _
    unfold Span.without Span.within
    rw [hfilter, hfilter]
  regions r hr := h.regions r (List.mem_of_mem_filter hr)

/-! ## Blocks run together -/

/-- The code of blocks run together is what the code of their stretches has become. -/
theorem glued_image {f : Instruction → List Instruction} {r : Stretch} {rs : List Stretch}
    {b : Block} {bs : List Block} (hb : (b.label, b.code) = r.image f)
    (hbs : bs.map (fun b => (b.label, b.code)) = rs.map (Stretch.image f)) :
    (b.label, (Graph.glued b bs).code) = (Stretch.glued r rs).image f := by
  obtain ⟨hlabel, hcode⟩ := Prod.mk.inj hb
  have hmore : bs.flatMap (·.code) = rs.flatMap (fun r => r.code.flatMap f) := by
    have := congrArg Outline.code hbs
    simpa [Outline.code, List.flatMap_map, Stretch.image] using this
  rw [Stretch.image, Stretch.glued_label, Stretch.glued_code, List.flatMap_assoc,
    List.flatMap_cons, ← hmore, ← hlabel, ← hcode]
  rfl

/-- Grouping blocks groups the stretches that they are made of. -/
theorem exists_groups {f : Instruction → List Instruction} {blocks joined : List Block}
    (h : Grouped g blocks joined) {T : List Stretch}
    (hT : blocks.map (fun b => (b.label, b.code)) = T.map (Stretch.image f)) :
    ∃ groups : List (Stretch × List Stretch), T = groups.flatMap (fun p => p.1 :: p.2)
      ∧ joined.map (fun b => (b.label, b.code))
          = groups.map (fun p => (Stretch.glued p.1 p.2).image f)
      ∧ ∀ p ∈ groups, ∃ b bs, GoesWith g b bs ∧ (b.label, b.code) = p.1.image f
          ∧ bs.map (fun b => (b.label, b.code)) = p.2.map (Stretch.image f) := by
  induction h generalizing T with
  | nil =>
    obtain rfl := List.map_eq_nil_iff.mp hT.symm
    exact ⟨[], rfl, rfl, fun _ hp => absurd hp List.not_mem_nil⟩
  | @run b bs rest joined hrun hrest ih =>
    rw [List.map_append] at hT
    obtain ⟨run, others, rfl, hrun', hothers⟩ := List.map_eq_append_iff.mp hT.symm
    obtain ⟨r, rs, rfl, hr, hrs⟩ := List.map_eq_cons_iff.mp hrun'
    obtain ⟨groups, rfl, hjoined, hgroups⟩ := ih hothers.symm
    refine ⟨(r, rs) :: groups, rfl, ?_, fun p hp => ?_⟩
    · rw [List.map_cons, List.map_cons, hjoined, ← glued_image hr.symm hrs.symm]
      rfl
    · rcases List.mem_cons.mp hp with rfl | hp
      · exact ⟨b, bs, hrun, hr.symm, hrs.symm⟩
      · exact hgroups p hp

/-- Control runs through all but the end of stretches that go together. -/
theorem straight_glued (h : Traced g₀ g T f) {r : Stretch} {rs : List Stretch} {b : Block}
    {bs : List Block} (hin : ∀ r' ∈ r :: rs, r' ∈ T) (hrun : GoesWith g b bs)
    (hb : (b.label, b.code) = r.image f)
    (hbs : bs.map (fun b => (b.label, b.code)) = rs.map (Stretch.image f)) :
    ∀ ins ∈ (Stretch.glued r rs).code.dropLast, ins.endsRun g₀.terminators = false := by
  induction rs using List.reverseRecOn generalizing bs with
  | nil =>
    intro ins hins
    rw [Stretch.glued_code, List.flatMap_singleton] at hins
    exact h.straight r (hin r List.mem_cons_self) ins hins
  | append_singleton rs r' ih =>
    rw [List.map_append] at hbs
    obtain ⟨bs, cs, rfl, hinit, hcs⟩ := List.map_eq_append_iff.mp hbs
    obtain ⟨c, cs, rfl, -, hnil⟩ := List.map_eq_cons_iff.mp hcs
    obtain rfl := List.map_eq_nil_iff.mp hnil
    have hin' : ∀ r'' ∈ r :: rs, r'' ∈ T := fun r'' hr'' =>
      hin r'' (by rw [← List.cons_append]; exact List.mem_append_left _ hr'')
    have hbefore := ih hin' hrun.init hinit
    have hcode : (Stretch.glued r (rs ++ [r'])).code = (Stretch.glued r rs).code ++ r'.code := by
      rw [Stretch.glued_code, Stretch.glued_code, ← List.cons_append, List.flatMap_append,
        List.flatMap_singleton]
    intro ins hins
    rw [hcode] at hins
    by_cases hnil : r'.code = []
    · rw [hnil, List.append_nil] at hins
      exact hbefore ins hins
    rw [List.dropLast_append_of_ne_nil hnil] at hins
    rcases List.mem_append.mp hins with hins | hins
    swap
    · exact h.straight r' (hin r' (by simp)) ins hins
    -- An instruction at the very end of the blocks before stands where control falls out.
    rcases List.eq_nil_or_concat (Stretch.glued r rs).code with hempty | ⟨front, last, hlast⟩
    · rw [hempty] at hins
      cases hins
    rw [List.concat_eq_append] at hlast
    rw [hlast, List.dropLast_concat] at hbefore
    rw [hlast] at hins
    rcases List.mem_append.mp hins with hins | hins
    · exact hbefore ins hins
    obtain rfl := List.mem_singleton.mp hins
    by_contra hends
    have hmem : ins ∈ (Stretch.glued r rs).code := by rw [hlast]; simp
    rw [Stretch.glued_code] at hmem
    obtain ⟨r'', hr'', hmem⟩ := List.mem_flatMap.mp hmem
    obtain ⟨front', j, hj, -, hj', -⟩ := (h.rewritten r'' (hin' r'' hr'') ins hmem).last
      (Bool.not_eq_false _ ▸ hends)
    obtain ⟨-, hfalls, -⟩ := hrun bs c [] rfl
    have hcode := congrArg Prod.snd (glued_image hb hinit)
    rw [Stretch.image, hlast, List.flatMap_append, List.flatMap_singleton, hj,
      ← List.append_assoc] at hcode
    refine absurd (hfalls j ?_) (by rw [h.terminators, hj']; decide)
    rw [show (Graph.glued b bs).code = _ from hcode, List.getLast?_concat]

/-- Blocks that go together stand in the ranges of the same regions. -/
theorem together_of_goesWith {f : Instruction → List Instruction} {r r' : Stretch}
    {rs : List Stretch} {b : Block} {bs : List Block} (hrun : GoesWith g b bs)
    (hb : (b.label, b.code) = r.image f)
    (hbs : bs.map (fun b => (b.label, b.code)) = rs.map (Stretch.image f)) (hr' : r' ∈ r :: rs) :
    g.Together r.label r'.label := by
  rcases List.mem_cons.mp hr' with rfl | hr'
  · exact fun s _ => ⟨Iff.rfl, Iff.rfl⟩
  obtain ⟨before, after, hsplit⟩ := List.append_of_mem hr'
  rw [hsplit, List.map_append] at hbs
  obtain ⟨bs, cs, rfl, -, hcs⟩ := List.map_eq_append_iff.mp hbs
  obtain ⟨c, cs, rfl, hc, -⟩ := List.map_eq_cons_iff.mp hcs
  obtain ⟨-, -, -, -, -, hsame⟩ := hrun bs c cs rfl
  rw [(Prod.mk.inj hb).1, (Prod.mk.inj hc).1] at hsame
  exact sameRegions_iff.mp hsame

/-- A span loses the blocks that are joined to others and keeps the rest. -/
theorem without_joinedLabels (g : Graph) (s : Span) :
    (s.within g.labels).without g.joinedLabels = s.within g.rejoined.labels := by
  have hfilter (labels : List Int) : (labels.filter g.labels.contains).filter
      (fun l => !g.joinedLabels.contains l) = labels.filter g.rejoined.labels.contains := by
    rw [List.filter_filter]
    refine List.filter_congr fun l _ => ?_
    by_cases hl : l ∈ g.labels
    · rw [contains_joinedLabels g hl, List.contains_iff_mem.mpr hl, Bool.and_true]
    · have hnot : l ∉ g.rejoined.labels := fun hl' =>
        hl (g.rejoined_labels_sublist.subset hl')
      rw [Bool.eq_iff_iff]
      simp [hl, hnot]
  unfold Span.without Span.within
  rw [hfilter, hfilter]

/-- Joining blocks joins the stretches that they are made of. -/
theorem rejoined (h : Traced g₀ g T f) :
    ∃ T', Traced g₀ g.rejoined.connected T' f := by
  obtain ⟨groups, hT, hjoined, hgroups⟩ := exists_groups (joinedBlocks_grouped g) h.outline
  have hin : ∀ p ∈ groups, ∀ r ∈ p.1 :: p.2, r ∈ T := fun p hp r hr =>
    hT ▸ List.mem_flatMap.mpr ⟨p, hp, hr⟩
  have hblocks : (groups.map fun p => Stretch.glued p.1 p.2).flatMap Stretch.blocks
      = T.flatMap Stretch.blocks := by
    rw [hT, List.flatMap_map, List.flatMap_assoc]
    rfl
  have hmem : ∀ r ∈ groups.map (fun p => Stretch.glued p.1 p.2),
      ∃ p ∈ groups, r = Stretch.glued p.1 p.2 := fun r hr => by
    obtain ⟨p, hp, rfl⟩ := List.mem_map.mp hr
    exact ⟨p, hp, rfl⟩
  have hformed := h.formed.rejoined
  refine ⟨groups.map fun p => Stretch.glued p.1 p.2, ?_⟩
  constructor
  case formed => exact hformed.connected
  case linked => exact hformed.linked
  case fresh => exact h.fresh
  case terminators => exact h.terminators
  case roots => exact h.formed.rejoined_roots.trans h.roots
  case sublist => exact hblocks ▸ h.sublist
  case outline =>
    rw [connected_outline, List.map_map]
    exact hjoined
  case rewritten =>
    intro r hr ins hins
    obtain ⟨p, hp, rfl⟩ := hmem r hr
    rw [Stretch.glued_code] at hins
    obtain ⟨r', hr', hins⟩ := List.mem_flatMap.mp hins
    exact h.rewritten r' (hin p hp r' hr') ins hins
  case straight =>
    intro r hr
    obtain ⟨p, hp, rfl⟩ := hmem r hr
    obtain ⟨b, bs, hrun, hb, hbs⟩ := hgroups p hp
    exact h.straight_glued (hin p hp) hrun hb hbs
  case next =>
    rw [hblocks]
    exact h.next
  case spans =>
    rw [connected_labels]
    show g.spans.map _ = _
    rw [h.spans, List.map_map]
    exact List.map_congr_left fun s _ => without_joinedLabels g s
  case regions =>
    intro r hr e he
    obtain ⟨p, hp, rfl⟩ := hmem r hr
    obtain ⟨b, bs, hrun, hb, hbs⟩ := hgroups p hp
    rw [Stretch.glued_blocks] at he
    obtain ⟨r', hr', he⟩ := List.mem_flatMap.mp he
    have hlabels := h.together (hin p hp _ List.mem_cons_self) (hin p hp r' hr')
      (together_of_goesWith hrun hb hbs hr')
    exact hlabels.trans (h.regions r' (hin p hp r' hr') e he)

theorem merged (h : Traced g₀ g T f) : ∃ T', Traced g₀ g.merged T' f := by
  rw [merged_eq]
  split
  · exact ⟨T, h⟩
  · exact h.rejoined

/-- Pruning leaves out some stretches and joins others. -/
theorem pruned (h : Traced g₀ g T f) : ∃ T', Traced g₀ g.pruned T' f := by
  unfold Graph.pruned
  split
  · exact ⟨T, h⟩
  · exact h.removeUnreachable.merged

/-! ## Instructions rewritten -/

/-- Rewriting each instruction in place leaves the stretches as they are. -/
theorem changed (h : Traced g₀ g T f) {g' : Graph} {edits : Block → List Edit}
    {number : Int → Int} (hchanged : Changed g g' edits number)
    (hgentle : ∀ b ∈ g.blocks, ∀ j ∈ b.code, Edit.Gentle (edits b) j) :
    Traced g₀ g' T fun ins =>
      (f ins).flatMap (Edit.outcome (g.blocks.flatMap edits) number) := by
  have hworked := hchanged.reworked
  have hout : ∀ r ∈ T, ∀ ins ∈ r.code, ∀ j ∈ f ins,
      j.Rewritten g.fresh (Edit.outcome (g.blocks.flatMap edits) number j) := by
    intro r hr ins hins j hj
    have hmem : j ∈ g.code := by
      rw [h.code]
      exact List.mem_flatMap.mpr ⟨ins, List.mem_flatMap.mpr ⟨r, hr, hins⟩, hj⟩
    obtain ⟨b, hb, hin⟩ := List.mem_flatMap.mp hmem
    rw [hchanged.each b hb j hin]
    exact (hgentle b hb j hin).rewritten hchanged.fresh
  refine ⟨hchanged.formed, hchanged.linked, Int.le_trans h.fresh hworked.fresh,
    hworked.terminators.trans h.terminators, ?_, h.sublist, ?_, ?_, h.straight, ?_, ?_, h.regions⟩
  · rw [← h.roots]
    exact h.formed.roots_congr hchanged.formed (by rw [hworked.labels]) (by rw [hworked.spans])
  · rw [hchanged.outline, h.outline, Outline.replace, List.map_map]
    refine List.map_congr_left fun r _ => ?_
    show (r.label, (r.code.flatMap f).flatMap _) = _
    rw [List.flatMap_assoc]
    rfl
  · exact fun r hr ins hins =>
      (h.rewritten r hr ins hins).trans h.fresh (hout r hr ins hins)
  · intro before₀ rest₀ before rest e last l hsplit₀ hsplit hlast hfalls hl
    have he : e ∈ T.flatMap Stretch.blocks := by rw [hsplit]; simp
    obtain ⟨r, hr, he⟩ := List.mem_flatMap.mp he
    have hin : last ∈ r.code := List.mem_flatMap.mpr ⟨e, he, List.mem_of_getLast? hlast⟩
    exact h.next before₀ rest₀ before rest e last l hsplit₀ hsplit hlast
      ((h.rewritten r hr last hin).settled_falls (hout r hr last hin) hfalls) hl
  · rw [hworked.spans, hworked.labels]
    exact h.spans

end Traced

end Graph

end Untangle
