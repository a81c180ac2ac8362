/-
  Untangle.Proofs.Graph.Merge

  Joining blocks changes where the code is cut and nothing else. `Grouped` says how the
  blocks before and after joining belong together: each block that is left is a run of
  blocks written one behind the other. All that is known about joining is read off it.
-/
import Untangle.Graph.Merge
import Untangle.Proofs.Graph.Reach

namespace Untangle

namespace Graph

/-- A block with the code of further blocks behind its own. -/
def glued (b : Block) (bs : List Block) : Block := { b with code := b.code ++ bs.flatMap (·.code) }

@[simp] theorem glued_nil (b : Block) : glued b [] = b := by
  simp [glued]

theorem glued_append (b c : Block) (bs : List Block) :
    glued b (bs ++ [c]) = { glued b bs with code := (glued b bs).code ++ c.code } := by
  simp [glued]

/-- Each of the blocks `bs` goes with the run that `b` starts. -/
def GoesWith (g : Graph) (b : Block) (bs : List Block) : Prop :=
  ∀ before c rest, bs = before ++ c :: rest →
    c.isEntry = false
    ∧ (∀ last, (glued b before).code.getLast? = some last → last.endsRun g.terminators = false)
    ∧ (∀ l ∈ c.preds, l ∈ (b :: before).map (·.label))
    ∧ c.label ∉ g.targeted
    ∧ (∀ ins ∈ c.code, ins.uid ∉ g.targeted)
    ∧ g.sameRegions b.label c.label = true

/-- Blocks before and after joining: each block afterwards is a run of blocks before. -/
inductive Grouped (g : Graph) : List Block → List Block → Prop where
  | nil : Grouped g [] []
  | run {b : Block} {bs rest joined : List Block} (hrun : GoesWith g b bs)
      (hrest : Grouped g rest joined) : Grouped g (b :: bs ++ rest) (glued b bs :: joined)

/-- What joining does, from the middle of a run on. -/
theorem joinRuns_grouped (g : Graph) {b : Block} {bs : List Block} (hrun : GoesWith g b bs)
    {absorbed : List Int} (habsorbed : ∀ l ∈ absorbed, l ∈ (b :: bs).map (·.label))
    (rest : List Block) :
    Grouped g (b :: bs ++ rest) (joinRuns g g.targeted absorbed (glued b bs) rest) := by
  induction rest generalizing b bs absorbed with
  | nil =>
    show Grouped g (b :: bs ++ []) [glued b bs]
    exact Grouped.run hrun .nil
  | cons c rest ih =>
    unfold joinRuns
    by_cases hjoins : g.joins g.targeted absorbed (glued b bs) c = true
    · rw [if_pos hjoins, ← glued_append]
      have hsplit : b :: bs ++ c :: rest = b :: (bs ++ [c]) ++ rest := by simp
      rw [hsplit]
      simp only [joins, Bool.and_eq_true, Bool.not_eq_true', List.all_eq_true,
        List.contains_iff_mem] at hjoins
      obtain ⟨⟨⟨⟨⟨hentry, hfalls⟩, hpreds⟩, htargeted⟩, huids⟩, hregions⟩ := hjoins
      refine ih (fun before d behind heq => ?_) (fun l hl => ?_)
      · -- The block is the one that has just been joined, or one that was there before.
        rcases List.eq_nil_or_concat behind with rfl | ⟨behind', last, rfl⟩
        · obtain ⟨rfl, hd⟩ := List.append_inj' heq rfl
          cases hd
          refine ⟨hentry, fun last hlast => ?_, fun l hl => habsorbed l (hpreds l hl), ?_,
            fun ins hins => ?_, hregions⟩
          · simpa [onlyFalls, Block.last?, hlast] using hfalls
          · simpa using htargeted
          · simpa using huids ins hins
        · rw [List.concat_eq_append, ← List.cons_append, ← List.append_assoc] at heq
          exact hrun before d behind' (List.append_inj' heq rfl).1
      · rw [← List.cons_append, List.map_append]
        rcases List.mem_cons.mp hl with rfl | hl
        · exact List.mem_append_right _ List.mem_cons_self
        · exact List.mem_append_left _ (habsorbed l hl)
    · rw [if_neg hjoins]
      refine Grouped.run hrun ?_
      have hnone : GoesWith g c [] := fun before d behind heq => by
        cases before <;> cases heq
      have := ih hnone (fun l (hl : l ∈ [c.label]) => hl)
      rw [glued_nil] at this
      exact this

/-- What joining does. -/
theorem joinedBlocks_grouped (g : Graph) : Grouped g g.blocks g.joinedBlocks := by
  unfold joinedBlocks
  cases g.blocks with
  | nil => exact .nil
  | cons b rest =>
    have hnone : GoesWith g b [] := fun before d behind heq => by
      cases before <;> cases heq
    have := joinRuns_grouped g hnone (fun l (hl : l ∈ [b.label]) => hl) rest
    rw [glued_nil] at this
    exact this

namespace Grouped

variable {g : Graph} {blocks joined : List Block}

theorem code_eq (h : Grouped g blocks joined) :
    joined.flatMap (·.code) = blocks.flatMap (·.code) := by
  induction h with
  | nil => rfl
  | run hrun hrest ih =>
    rw [List.flatMap_cons, ih, List.flatMap_append, List.flatMap_cons]
    rfl

theorem labels_sublist (h : Grouped g blocks joined) :
    (joined.map (·.label)).Sublist (blocks.map (·.label)) := by
  induction h with
  | nil => exact List.Sublist.slnil
  | run hrun hrest ih =>
    rw [List.map_cons, List.cons_append, List.map_cons, List.map_append]
    exact (ih.trans (List.sublist_append_right _ _)).cons_cons _

/-- The run that a label is in. -/
theorem locate (h : Grouped g blocks joined) {l : Int} (hl : l ∈ blocks.map (·.label)) :
    ∃ before b bs rest joinedBefore joinedRest,
      blocks = before ++ (b :: bs ++ rest)
      ∧ joined = joinedBefore ++ glued b bs :: joinedRest
      ∧ GoesWith g b bs ∧ l ∈ (b :: bs).map (·.label)
      ∧ Grouped g before joinedBefore ∧ Grouped g rest joinedRest := by
  induction h with
  | nil => cases hl
  | @run b bs rest joined hrun hrest ih =>
    rw [List.map_append] at hl
    rcases List.mem_append.mp hl with hin | hin
    · exact ⟨[], b, bs, rest, [], joined, rfl, rfl, hrun, hin, .nil, hrest⟩
    · obtain ⟨before, b', bs', rest', jb, jr, rfl, rfl, hrun', hl', hbefore, hrest'⟩ := ih hin
      refine ⟨b :: bs ++ before, b', bs', rest', glued b bs :: jb, jr, ?_, rfl, hrun', hl',
        .run hrun hbefore, hrest'⟩
      rw [List.append_assoc]

/-- A block that has been joined to the one that starts its run. -/
theorem locate_joined (h : Grouped g blocks joined) {c : Block} (hc : c ∈ blocks)
    (hgone : c.label ∉ joined.map (·.label)) :
    ∃ before b bs after rest, blocks = before ++ (b :: (bs ++ c :: after) ++ rest)
      ∧ GoesWith g b (bs ++ c :: after) := by
  induction h with
  | nil => cases hc
  | @run b bs rest joined hrun hrest ih =>
    rw [List.map_cons, List.mem_cons, not_or] at hgone
    rcases List.mem_append.mp hc with hin | hin
    · rcases List.mem_cons.mp hin with rfl | hin
      · exact absurd rfl hgone.1
      · obtain ⟨before, after, rfl⟩ := List.append_of_mem hin
        exact ⟨[], b, before, after, rest, rfl, hrun⟩
    · obtain ⟨before, b', bs', after, rest', rfl, hrun'⟩ := ih hin hgone.2
      refine ⟨b :: bs ++ before, b', bs', after, rest', ?_, hrun'⟩
      rw [List.append_assoc]

/-- The code from a label on that is left is the code that was there from the label on. -/
theorem from?_code (h : Grouped g blocks joined) (hnodup : (blocks.map (·.label)).Nodup) {l : Int}
    (hl : l ∈ joined.map (·.label)) :
    (Outline.from? (joined.map fun b => (b.label, b.code)) l).map Outline.code
      = (Outline.from? (blocks.map fun b => (b.label, b.code)) l).map Outline.code := by
  induction h with
  | nil => rfl
  | @run b bs rest joined hrun hrest ih =>
    by_cases hb : b.label = l
    · have hcode : (joined.flatMap (·.code)) = rest.flatMap (·.code) := hrest.code_eq
      subst hb
      simp [Outline.from?, Outline.code, glued, List.flatMap_map, hcode]
    · have hin : l ∈ joined.map (·.label) := by
        rcases List.mem_cons.mp hl with rfl | hl
        · exact absurd rfl hb
        · exact hl
      rw [List.map_append, List.nodup_append] at hnodup
      -- No block of the run has the label.
      have hskip : ∀ c ∈ b :: bs, c.label ≠ l := fun c hc heq =>
        hnodup.2.2 c.label (List.mem_map_of_mem hc) l (hrest.labels_sublist.subset hin) heq
      rw [List.map_cons, Outline.from?_cons_of_ne _ (by exact hb), ih hnodup.2.1 hin]
      clear hrun ih hl hb
      generalize b :: bs = run at hskip
      rw [List.map_append]
      congr 1
      induction run with
      | nil => rfl
      | cons c run ih =>
        rw [List.map_cons, List.cons_append,
          Outline.from?_cons_of_ne _ (by exact hskip c List.mem_cons_self)]
        exact ih fun d hd => hskip d (List.mem_cons_of_mem _ hd)

/-- A block that is left is a run, and only the label of its first block is left. -/
theorem exists_run (h : Grouped g blocks joined) (hnodup : (blocks.map (·.label)).Nodup)
    {j : Block} (hj : j ∈ joined) :
    ∃ b bs, j = glued b bs ∧ b ∈ blocks ∧ (∀ c ∈ bs, c ∈ blocks)
      ∧ GoesWith g b bs ∧ ∀ c ∈ bs, c.label ∉ joined.map (·.label) := by
  induction h with
  | nil => cases hj
  | @run b bs rest joined hrun hrest ih =>
    rw [List.map_append, List.nodup_append] at hnodup
    obtain ⟨hfirst, hsecond, hapart⟩ := hnodup
    have hsub := hrest.labels_sublist.subset
    rcases List.mem_cons.mp hj with rfl | hin
    · refine ⟨b, bs, rfl, List.mem_cons_self, fun c hc => ?_, hrun, fun c hc hkept => ?_⟩
      · exact List.mem_append_left _ (List.mem_cons_of_mem _ hc)
      · rcases List.mem_cons.mp hkept with heq | hkept
        · exact (List.nodup_cons.mp hfirst).1
            (heq ▸ List.mem_map.mpr ⟨c, hc, rfl⟩)
        · exact hapart c.label (List.mem_map_of_mem (List.mem_cons_of_mem _ hc)) c.label
            (hsub hkept) rfl
    · obtain ⟨b', bs', rfl, hb', hbs', hrun', hgone⟩ := ih hsecond hin
      refine ⟨b', bs', rfl, List.mem_append_right _ hb',
        fun c hc => List.mem_append_right _ (hbs' c hc), hrun', fun c hc hkept => ?_⟩
      rcases List.mem_cons.mp hkept with heq | hkept
      · exact hapart b.label List.mem_cons_self c.label
          (List.mem_map_of_mem (hbs' c hc)) heq.symm
      · exact hgone c hc hkept

theorem labels_head (h : Grouped g blocks joined) :
    (joined.map (·.label)).head? = (blocks.map (·.label)).head? := by
  cases h <;> rfl

end Grouped

/-- The first blocks of a run go with it, too. -/
theorem GoesWith.init {g : Graph} {b c : Block} {bs : List Block}
    (h : GoesWith g b (bs ++ [c])) : GoesWith g b bs := fun before d rest heq =>
  h before d (rest ++ [c]) (by rw [heq]; simp)

/-- Only the last instruction of a run can end it. -/
theorem GoesWith.straight {g : Graph} {b : Block} {bs : List Block} (h : GoesWith g b bs)
    (hall : ∀ c ∈ b :: bs, ∀ ins ∈ c.code.dropLast, ins.endsRun g.terminators = false) :
    ∀ ins ∈ (glued b bs).code.dropLast, ins.endsRun g.terminators = false := by
  induction bs using List.reverseRecOn with
  | nil =>
    rw [glued_nil]
    exact hall b List.mem_cons_self
  | append_singleton bs c ih =>
    rw [glued_append]
    have hinit : ∀ ins ∈ (glued b bs).code.dropLast, ins.endsRun g.terminators = false :=
      ih h.init fun d hd => hall d (by
        rcases List.mem_cons.mp hd with rfl | hd
        · exact List.mem_cons_self
        · exact List.mem_cons_of_mem _ (List.mem_append_left _ hd))
    obtain ⟨-, hfalls, -⟩ := h bs c [] rfl
    rcases List.eq_nil_or_concat c.code with hnil | ⟨init, last, hc⟩
    · simp only [hnil, List.append_nil]
      exact hinit
    · -- The run before the last block does not end either.
      have hwhole : ∀ ins ∈ (glued b bs).code, ins.endsRun g.terminators = false := by
        rcases List.eq_nil_or_concat (glued b bs).code with hempty | ⟨front, back, hsplit⟩
        · rw [hempty]
          exact fun ins hins => absurd hins List.not_mem_nil
        · rw [List.concat_eq_append] at hsplit
          rw [hsplit] at hinit hfalls ⊢
          rw [List.dropLast_concat] at hinit
          intro ins hins
          rcases List.mem_append.mp hins with hins | hins
          · exact hinit ins hins
          · rw [List.mem_singleton.mp hins]
            exact hfalls back List.getLast?_concat
      rw [List.concat_eq_append] at hc
      have hcode : ({ glued b bs with code := (glued b bs).code ++ c.code } : Block).code
          = ((glued b bs).code ++ init) ++ [last] := by
        simp [hc]
      rw [hcode, List.dropLast_concat]
      intro ins hins
      rcases List.mem_append.mp hins with hins | hins
      · exact hwhole ins hins
      · refine hall c (List.mem_cons_of_mem _ (List.mem_append_right _ List.mem_cons_self)) ins ?_
        rw [hc, List.dropLast_concat]
        exact hins

/-- Control falls out of a run where it falls out of the last block: an empty block leaves it to
    the code before. -/
theorem GoesWith.falls {g : Graph} {b x : Block} {bs p : List Block} (h : GoesWith g b bs)
    (hlast : b :: bs = p ++ [x]) (hfalls : fallsOut g.terminators x.code = true) :
    fallsOut g.terminators (glued b bs).code = true := by
  have hcode : (glued b bs).code = p.flatMap (·.code) ++ x.code := by
    show (b :: bs).flatMap (·.code) = _
    rw [hlast, List.flatMap_append, List.flatMap_singleton]
  unfold fallsOut at hfalls ⊢
  cases hx : x.code.getLast? with
  | some last =>
    rw [hx] at hfalls
    rw [hcode, List.getLast?_append, hx]
    exact hfalls
  | none =>
    have hnil : x.code = [] := List.getLast?_eq_none_iff.mp hx
    cases p with
    | nil => rw [hcode, hnil]; rfl
    | cons b' p =>
      obtain ⟨rfl, hbs⟩ := List.cons.inj hlast
      have hsame : (glued b bs).code = (glued b p).code := by
        rw [hcode, hnil, List.append_nil]
        rfl
      rw [hsame]
      cases hback : (glued b p).code.getLast? with
      | none => rfl
      | some last =>
        have hends := (h p x [] hbs).2.1 last hback
        rw [Instruction.endsRun, Bool.or_eq_false_iff, Bool.not_eq_false'] at hends
        exact hends.2

/-! ## The graph after joining -/

/-- The graph after joining, with the edges of before. -/
def rejoined (g : Graph) : Graph :=
  { g with
    blocks := g.joinedBlocks
    spans := g.spans.map fun s => s.without g.joinedLabels }

theorem merged_eq (g : Graph) :
    g.merged = if g.joinedLabels.isEmpty then g else g.rejoined.connected := rfl

@[simp] theorem rejoined_code (g : Graph) : g.rejoined.code = g.code :=
  g.joinedBlocks_grouped.code_eq

@[simp] theorem merged_code (g : Graph) : g.merged.code = g.code := by
  rw [merged_eq]
  split
  · rfl
  · rw [connected_code, rejoined_code]

theorem rejoined_labels_sublist (g : Graph) : g.rejoined.labels.Sublist g.labels :=
  g.joinedBlocks_grouped.labels_sublist

/-! ## A run and what is around it -/

/-- A run of blocks of a graph that are joined to one: the block that starts it, the others, and
    what is in front of them and behind them before and after joining. -/
structure Run (g : Graph) where
  first : Block
  others : List Block
  before : List Block
  rest : List Block
  joinedBefore : List Block
  joinedRest : List Block
  split : g.blocks = before ++ (first :: others ++ rest)
  joined : g.joinedBlocks = joinedBefore ++ glued first others :: joinedRest
  goes : GoesWith g first others
  front : Grouped g before joinedBefore
  back : Grouped g rest joinedRest

namespace Run

variable {g : Graph}

/-- The labels of the blocks of a run. -/
def labels (r : g.Run) : List Int := (r.first :: r.others).map (·.label)

/-- Every label is in a run. -/
theorem exists_of_mem {l : Int} (hl : l ∈ g.labels) : ∃ r : g.Run, l ∈ r.labels := by
  obtain ⟨before, b, bs, rest, jb, jr, hsplit, hjoined, hgoes, hin, hfront, hback⟩ :=
    g.joinedBlocks_grouped.locate hl
  exact ⟨⟨b, bs, before, rest, jb, jr, hsplit, hjoined, hgoes, hfront, hback⟩, hin⟩

/-- The label of the first block of a run is left. -/
theorem first_left (r : g.Run) : r.first.label ∈ g.rejoined.labels := by
  show r.first.label ∈ g.joinedBlocks.map _
  rw [r.joined]
  simp [glued]

/-- The label of a block that is not the first of its run is not left. -/
theorem not_left (r : g.Run) (hnodup : g.labels.Nodup) {c : Block} (hc : c ∈ r.others) :
    c.label ∉ g.rejoined.labels := by
  rw [Graph.labels, r.split, List.map_append, List.nodup_append, List.map_append,
    List.nodup_append] at hnodup
  obtain ⟨-, ⟨hrun, -, hbehind⟩, hfront⟩ := hnodup
  have hmem : c.label ∈ (r.first :: r.others).map (·.label) :=
    List.mem_map_of_mem (List.mem_cons_of_mem _ hc)
  show c.label ∉ g.joinedBlocks.map (·.label)
  rw [r.joined, List.map_append]
  intro hin
  rcases List.mem_append.mp hin with hin | hin
  · exact hfront _ (r.front.labels_sublist.subset hin) _ (List.mem_append_left _ hmem) rfl
  · rcases List.mem_cons.mp hin with heq | hin
    · exact (List.nodup_cons.mp hrun).1 (heq ▸ List.mem_map.mpr ⟨c, hc, rfl⟩)
    · exact hbehind _ hmem _ (r.back.labels_sublist.subset hin) rfl

/-- The only label of a run that is left is the first. -/
theorem eq_first (r : g.Run) (hnodup : g.labels.Nodup) {l : Int} (hl : l ∈ r.labels)
    (hleft : l ∈ g.rejoined.labels) : l = r.first.label := by
  rcases List.mem_cons.mp hl with rfl | hin
  · rfl
  · obtain ⟨c, hc, rfl⟩ := List.mem_map.mp hin
    exact absurd hleft (r.not_left hnodup hc)

/-- The outline around a block of a run. -/
theorem outline_eq (r : g.Run) {p q : List Block} {x : Block}
    (hpq : r.first :: r.others = p ++ x :: q) :
    g.outline = (r.before ++ p).map (fun b => (b.label, b.code))
      ++ (x.label, x.code) :: (q ++ r.rest).map fun b => (b.label, b.code) := by
  rw [outline, r.split, hpq]
  simp

/-- The outline around a run after joining. -/
theorem rejoined_outline (r : g.Run) :
    g.rejoined.outline = r.joinedBefore.map (fun b => (b.label, b.code))
      ++ (r.first.label, (glued r.first r.others).code)
        :: r.joinedRest.map fun b => (b.label, b.code) := by
  show g.joinedBlocks.map _ = _
  rw [r.joined, List.map_append, List.map_cons]
  rfl

/-- A block that is not the last of its run leads to nothing that is left: it only falls through
    into the block behind it. -/
theorem not_left_of_leads (r : g.Run) (hnodup : g.labels.Nodup) {p q : List Block} {x y : Block}
    (hpq : r.first :: r.others = p ++ x :: y :: q) {l : Int} (hleads : g.Leads x.label l) :
    l ∉ g.rejoined.labels := by
  obtain ⟨p', hp'⟩ : ∃ p', p ++ [x] = r.first :: p' := by
    cases p with
    | nil => exact ⟨[], by rw [List.cons.inj hpq |>.1]; rfl⟩
    | cons b p => exact ⟨p ++ [x], by rw [List.cons.inj hpq |>.1]; rfl⟩
  have hothers : r.others = p' ++ y :: q := by
    have hrun : r.first :: r.others = (p ++ [x]) ++ y :: q := by rw [hpq]; simp
    rw [hp', List.cons_append] at hrun
    exact (List.cons.inj hrun).2
  have houtline : g.outline.labels.Nodup := by
    rw [Outline.labels_outline]
    exact hnodup
  rcases (leads_iff houtline (r.outline_eq hpq) l).mp hleads with
    ⟨last, hlast, t, ht, -⟩ | ⟨-, hhead⟩
  · have hends := (r.goes p' y q hothers).2.1 last (by
      show ((r.first :: p').flatMap (·.code)).getLast? = some last
      rw [← hp', List.flatMap_append, List.flatMap_singleton, List.getLast?_append, hlast]
      rfl)
    have hbranch := Instruction.isBranch_of_mem_aims ht
    rw [Instruction.endsRun, hbranch] at hends
    cases hends
  · have hy : y.label = l := by simpa [Outline.labels] using hhead
    rw [← hy]
    exact r.not_left hnodup (by rw [hothers]; simp)

/-- Where the last block of a run leads, the run leads. -/
theorem leads_of_last (r : g.Run) (hnodup : g.labels.Nodup) {p : List Block} {x : Block}
    (hpx : r.first :: r.others = p ++ [x]) {l : Int} (hleads : g.Leads x.label l) :
    g.rejoined.Leads r.first.label l := by
  have houtline : g.outline.labels.Nodup := by
    rw [Outline.labels_outline]
    exact hnodup
  refine ⟨_, _, _, r.rejoined_outline, ?_⟩
  rcases (leads_iff houtline (r.outline_eq hpx) l).mp hleads with
    ⟨last, hlast, ht⟩ | ⟨hfalls, hhead⟩
  · refine Or.inl ⟨last, ?_, ht⟩
    show ((r.first :: r.others).flatMap (·.code)).getLast? = some last
    rw [hpx, List.flatMap_append, List.flatMap_singleton, List.getLast?_append, hlast]
    rfl
  · refine Or.inr ⟨r.goes.falls hpx hfalls, ?_⟩
    simp only [Outline.labels, List.map_map, Function.comp_def, List.nil_append] at hhead ⊢
    rw [r.back.labels_head]
    exact hhead

/-- Where a block of a run leads to what is left, the run leads. -/
theorem leads (r : g.Run) (hnodup : g.labels.Nodup) {a l : Int} (ha : a ∈ r.labels)
    (hleads : g.Leads a l) (hl : l ∈ g.rejoined.labels) : g.rejoined.Leads r.first.label l := by
  obtain ⟨x, hx, rfl⟩ := List.mem_map.mp ha
  obtain ⟨p, q, hpq⟩ := List.append_of_mem hx
  cases q with
  | nil => exact r.leads_of_last hnodup hpq hleads
  | cons y q => exact absurd hl (r.not_left_of_leads hnodup hpq hleads)

/-- All that leads to a block inside a run is in the run. -/
theorem mem_of_leads (r : g.Run) (hlinked : g.Linked) {c : Block} (hc : c ∈ r.others) {a : Int}
    (hleads : g.Leads a c.label) : a ∈ r.labels := by
  obtain ⟨front, back, hothers⟩ := List.append_of_mem hc
  have hmem : c ∈ g.blocks := by
    rw [r.split]
    exact List.mem_append_right _ (List.mem_append_left _ (List.mem_cons_of_mem _ hc))
  have hpred := (r.goes front c back hothers).2.2.1 a ((hlinked.preds c hmem _).mpr hleads)
  rw [labels, hothers]
  rcases List.mem_cons.mp hpred with heq | hin
  · rw [heq]
    exact List.mem_cons_self
  · rw [List.map_cons, List.map_append]
    exact List.mem_cons_of_mem _ (List.mem_append_left _ hin)

end Run

/-- A list without repetition is filtered by being in a sublist of it. -/
theorem filter_mem_of_sublist {xs ys : List Int} (hnodup : ys.Nodup) (h : xs.Sublist ys) :
    ys.filter (fun y => xs.contains y) = xs := by
  induction h with
  | slnil => rfl
  | @cons xs ys y h ih =>
    obtain ⟨hy, hys⟩ := List.nodup_cons.mp hnodup
    have hnot : xs.contains y = false := by simpa using fun hin => hy (h.subset hin)
    rw [List.filter_cons, hnot]
    exact ih hys
  | @cons_cons xs ys y h ih =>
    obtain ⟨hy, hys⟩ := List.nodup_cons.mp hnodup
    rw [List.filter_cons]
    simp only [List.contains_cons, beq_self_eq_true, Bool.true_or, if_true]
    congr 1
    rw [← ih hys]
    refine List.filter_congr fun z hz => ?_
    have hne : (z == y) = false := by
      have : z ≠ y := fun heq => hy (heq ▸ hz)
      simpa using this
    rw [ih hys, hne, Bool.false_or]

theorem contains_joinedLabels (g : Graph) {l : Int} (hl : l ∈ g.labels) :
    (!g.joinedLabels.contains l) = g.rejoined.labels.contains l := by
  rw [Bool.eq_iff_iff]
  simp only [joinedLabels, Bool.not_eq_true', List.contains_iff_mem, ← Bool.not_eq_true,
    List.mem_filter, not_and, Decidable.not_not]
  exact ⟨fun h => h hl, fun h _ => h⟩

/-- What a branch names is left. -/
theorem mem_rejoined_of_targeted (g : Graph) {l : Int} (hl : l ∈ g.labels)
    (ht : l ∈ g.targeted) : l ∈ g.rejoined.labels := by
  by_contra hgone
  obtain ⟨c, hc, rfl⟩ := List.mem_map.mp hl
  obtain ⟨before, b, bs, after, rest, -, hrun⟩ := g.joinedBlocks_grouped.locate_joined hc hgone
  exact (hrun bs c after rfl).2.2.2.1 ht

/-- The head of a handler is left. -/
theorem mem_rejoined_of_head {g : Graph} (hnodup : g.labels.Nodup) {s : Span} (hs : s ∈ g.spans)
    (hrow : s.handlerBlocks <:+: g.labels) {l : Int} (hl : s.handlerBlocks.head? = some l) :
    l ∈ g.rejoined.labels := by
  by_contra hgone
  have hmem := hrow.subset (List.mem_of_mem_head? hl)
  obtain ⟨c, hc, rfl⟩ := List.mem_map.mp hmem
  obtain ⟨before, b, bs, after, rest, hsplit, hrun⟩ :=
    g.joinedBlocks_grouped.locate_joined hc hgone
  -- The block before it in the run would be in the handler, too, and stand in front of it.
  have hregions := (hrun bs c after rfl).2.2.2.2.2
  have hsame := List.all_eq_true.mp hregions s hs
  simp only [Bool.and_eq_true, beq_iff_eq] at hsame
  obtain ⟨tail, htail⟩ := List.head?_eq_some_iff.mp hl
  have hin : b.label ∈ s.handlerBlocks := by
    rw [← List.contains_iff_mem, hsame.2, List.contains_iff_mem, htail]
    exact List.mem_cons_self
  obtain ⟨front, back, hrow⟩ := hrow
  have hlabels : g.labels = (before ++ b :: bs).map (·.label) ++ c.label ::
      (after ++ rest).map (·.label) := by
    rw [labels, hsplit]
    simp
  have hlabels' : g.labels = front ++ c.label :: (tail ++ back) := by
    rw [← hrow, htail]
    simp
  rw [hlabels] at hnodup hlabels'
  obtain ⟨hfront, -⟩ := append_cons_inj_of_nodup hnodup hlabels'
  rw [hlabels', List.nodup_append] at hnodup
  refine hnodup.2.2 b.label ?_ b.label ?_ rfl
  · rw [← hfront]
    simp
  · rw [htail] at hin
    rcases List.mem_cons.mp hin with heq | hin
    · rw [heq]
      exact List.mem_cons_self
    · exact List.mem_cons_of_mem _ (List.mem_append_left _ hin)

namespace Formed

variable {g : Graph}

theorem mem_targeted (h : g.Formed) {ins : Instruction} (hins : ins ∈ g.code) {t : Value}
    (ht : t ∈ ins.aims) {l : Int} (hl : t.wholeNumber? = some l) : l ∈ g.targeted := by
  refine List.mem_flatMap.mpr ⟨ins, hins, ?_⟩
  rw [Instruction.targetUids, h.targets_ok hins]
  exact List.mem_filterMap.mpr ⟨t, ht, hl⟩

theorem rejoined_heads (h : g.Formed) :
    g.rejoined.spans.map (·.handlerBlocks.head?) = g.spans.map (·.handlerBlocks.head?) := by
  show (g.spans.map _).map _ = _
  rw [List.map_map]
  refine List.map_congr_left fun s hs => ?_
  obtain ⟨l, hl, -⟩ := h.starts s hs
  obtain ⟨rest, hrest⟩ := List.head?_eq_some_iff.mp hl
  have hkept := contains_joinedLabels g ((h.handlers s hs).subset (List.mem_of_mem_head? hl))
  have hleft := mem_rejoined_of_head h.labels_nodup hs (h.handlers s hs) hl
  rw [List.contains_iff_mem.mpr hleft] at hkept
  show (s.handlerBlocks.filter _).head? = s.handlerBlocks.head?
  rw [hrest, List.filter_cons, hkept]
  rfl

/-- The code of a block that is left comes from the blocks of its run. -/
theorem mem_rejoined (h : g.Formed) (e : Int × List Instruction) (he : e ∈ g.rejoined.outline) :
    ∃ b bs, e = (b.label, (glued b bs).code) ∧ (∀ c ∈ b :: bs, c ∈ g.blocks)
      ∧ GoesWith g b bs ∧ ∀ c ∈ bs, c.label ∉ g.rejoined.labels := by
  obtain ⟨j, hj, rfl⟩ := List.mem_map.mp he
  obtain ⟨b, bs, rfl, hb, hbs, hrun, hgone⟩ :=
    g.joinedBlocks_grouped.exists_run h.labels_nodup hj
  refine ⟨b, bs, rfl, fun c hc => ?_, hrun, hgone⟩
  rcases List.mem_cons.mp hc with rfl | hc
  · exact hb
  · exact hbs c hc

/-- The entry of the graph is the first block that is left. -/
theorem rejoined_entry (h : g.Formed) {b : Block} {rest : List Block}
    (hblocks : g.rejoined.blocks = b :: rest) :
    b.isEntry = true ∧ ∀ c ∈ rest, c.isEntry = false := by
  have hgrouped := g.joinedBlocks_grouped
  rw [show g.joinedBlocks = b :: rest from hblocks] at hgrouped
  have hentry := h.entry
  have hnodup := h.labels_nodup
  rw [labels] at hnodup
  generalize g.blocks = blocks at hgrouped hentry hnodup
  cases hgrouped with
  | @run b bs rest _ hrun hrest =>
    obtain ⟨hfirst, hothers⟩ := hentry b (bs ++ rest) rfl
    refine ⟨hfirst, fun j hj => ?_⟩
    rw [List.map_append, List.nodup_append] at hnodup
    obtain ⟨c, cs, rfl, hc, -⟩ := hrest.exists_run hnodup.2.1 hj
    exact hothers c (List.mem_append_right _ hc)

/-- What is left of a handler stands together. -/
theorem rejoined_handler (h : g.Formed) {s : Span} (hs : s ∈ g.spans) :
    (s.without g.joinedLabels).handlerBlocks <:+: g.rejoined.labels := by
  have hkeep : (s.without g.joinedLabels).handlerBlocks
      = s.handlerBlocks.filter fun l => g.rejoined.labels.contains l :=
    List.filter_congr fun l hl => contains_joinedLabels g ((h.handlers s hs).subset hl)
  obtain ⟨before, behind, hsplit⟩ := h.handlers s hs
  have hrow : (s.handlerBlocks.filter fun l => g.rejoined.labels.contains l)
      <:+: g.labels.filter fun l => g.rejoined.labels.contains l := by
    rw [← hsplit, List.filter_append, List.filter_append]
    exact ⟨_, _, rfl⟩
  rw [filter_mem_of_sublist h.labels_nodup (rejoined_labels_sublist g)] at hrow
  rw [hkeep]
  exact hrow

/-- The graph after joining is well-formed. -/
theorem rejoined (h : g.Formed) : g.rejoined.Formed := by
  have hsub := (rejoined_labels_sublist g).subset
  have hcode := rejoined_code g
  constructor
  case labels_nodup => exact h.labels_nodup.sublist (rejoined_labels_sublist g)
  case uids_nodup =>
    rw [hcode]
    exact h.uids_nodup
  case labels_fresh => exact fun l hl => h.labels_fresh l (hsub hl)
  case uids_fresh =>
    rw [hcode]
    exact h.uids_fresh
  case own =>
    intro e he ins hins hkept
    obtain ⟨b, bs, rfl, hmem, -, hgone⟩ := h.mem_rejoined e he
    have hins' : ins ∈ (b :: bs).flatMap (·.code) := hins
    obtain ⟨c, hc, hin⟩ := List.mem_flatMap.mp hins'
    have huid := h.own _ (mem_outline_of_mem (hmem c hc)) ins hin (hsub hkept)
    rcases List.mem_cons.mp hc with rfl | hc
    · exact huid
    · rw [huid] at hkept
      exact absurd hkept (hgone c hc)
  case straight =>
    intro e he
    obtain ⟨b, bs, rfl, hmem, hrun, -⟩ := h.mem_rejoined e he
    exact hrun.straight fun c hc => h.straight _ (mem_outline_of_mem (hmem c hc))
  case targets =>
    rw [hcode]
    intro ins hins
    refine ⟨ins.aims, h.targets_ok hins, fun t ht => ?_⟩
    obtain ⟨l, hl, htl⟩ := h.aims hins ht
    exact ⟨l, mem_rejoined_of_targeted g hl (h.mem_targeted hins ht htl), htl⟩
  case entry => exact fun b rest hblocks => h.rejoined_entry hblocks
  case handlers =>
    intro s' hs'
    obtain ⟨s, hs, rfl⟩ := List.mem_map.mp hs'
    exact h.rejoined_handler hs
  case starts =>
    intro s' hs'
    obtain ⟨s, hs, rfl⟩ := List.mem_map.mp hs'
    obtain ⟨l, hl, hstart⟩ := h.starts s hs
    refine ⟨l, ?_, hstart⟩
    rw [← hl]
    have hheads : (g.spans.map fun s => s.without g.joinedLabels).map
        (·.handlerBlocks.head?) = g.spans.map (·.handlerBlocks.head?) := h.rejoined_heads
    rw [List.map_map] at hheads
    exact List.map_inj_left.mp hheads s hs
  case exits =>
    rw [hcode]
    exact h.exits

/-- Joining changes nothing that a run can show. -/
theorem rejoined_refined (h : g.Formed) {P : Platform} : Refined P g g.rejoined := by
  have hgrouped := g.joinedBlocks_grouped
  have houtline : g.rejoined.outline.code = g.outline.code := by
    rw [Outline.code_outline, Outline.code_outline, rejoined_code]
  have hat (l : Int) (hl : l ∈ g.rejoined.labels) :
      (g.rejoined.outline.from? l).map Outline.code = (g.outline.from? l).map Outline.code :=
    hgrouped.from?_code h.labels_nodup hl
  have henter : ∀ ins ∈ g.outline.code, ∀ t ∈ ins.copy.aims,
      g.rejoined.outline.codeAt? t = g.outline.codeAt? t := by
    rw [Outline.code_outline]
    intro ins hins t ht
    rw [h.aims_copy hins] at ht
    obtain ⟨l, hl, htl⟩ := h.aims hins ht
    unfold Outline.codeAt? Outline.enter?
    rw [htl, Option.bind_some, Option.bind_some]
    exact hat l (mem_rejoined_of_targeted g hl (h.mem_targeted hins ht htl))
  constructor
  · exact fun σ => Outline.refines_of_code P houtline (List.suffix_refl _) houtline henter σ
  · intro index place hplace
    obtain ⟨s, hs, hplace'⟩ := Option.bind_eq_some_iff.mp hplace
    obtain ⟨l, c, rest, hhead, hl, hplace'', hsuffix⟩ := h.handlerPlace?_eq hs
    rw [hplace] at hplace''
    cases hplace''
    have hspan : (g.rejoined.spans[index]?).map (·.handlerBlocks.head?) = some (some l) := by
      rw [← List.getElem?_map, h.rejoined_heads, List.getElem?_map, hs, Option.map_some, hhead]
    obtain ⟨s', hs', hhead'⟩ := Option.map_eq_some_iff.mp hspan
    have hmem := List.mem_of_getElem? hs
    have hsame := hat l (mem_rejoined_of_head h.labels_nodup hmem (h.handlers s hmem) hhead)
    rw [hhead, Option.bind_some] at hplace'
    rw [hplace', Option.map_some] at hsame
    obtain ⟨place', hfrom, hcode⟩ := Option.map_eq_some_iff.mp hsame
    refine ⟨place', ?_, fun σ => ?_⟩
    · rw [handlerPlace?, hs', Option.bind_some, hhead', Option.bind_some]
      exact hfrom
    · exact Outline.refines_of_code P houtline hsuffix hcode henter σ

theorem rejoined_roots (h : g.Formed) : g.rejoined.connected.roots = g.roots := by
  refine h.roots_congr h.rejoined.connected ?_ h.rejoined_heads
  rw [connected_labels]
  exact g.joinedBlocks_grouped.labels_head

/-- The run that a reached block is in is reached. -/
theorem reached_run (h : g.Formed) (hlinked : g.Linked) {l : Int} (hl : g.Reached l) (r : g.Run)
    (hin : l ∈ r.labels) : g.rejoined.connected.Reached r.first.label := by
  induction hl generalizing r with
  | @root l hroot =>
    have hleft : l ∈ g.rejoined.labels := by
      have hmem := h.rejoined.connected.roots_subset (h.rejoined_roots ▸ hroot)
      rwa [connected_labels] at hmem
    rw [← r.eq_first h.labels_nodup hin hleft]
    exact .root (h.rejoined_roots ▸ hroot)
  | @edge a l ha hfrom hsucc ih =>
    have hleads := (hlinked.succs a ha l).mp hsucc
    rcases List.mem_cons.mp hin with rfl | hinside
    · obtain ⟨r', hr'⟩ := Run.exists_of_mem (mem_labels_of_mem ha)
      have hto := r'.leads h.labels_nodup hr' hleads r.first_left
      have hto' := (leads_congr (connected_outline g.rejoined) rfl _ _).mpr hto
      have hfrom' := ih r' hr'
      obtain ⟨c, hc, hlabel⟩ := List.mem_map.mp hto'.mem_labels
      rw [← hlabel] at hfrom' hto'
      exact .edge hc hfrom' ((h.rejoined.linked.succs c hc _).mpr hto')
    · obtain ⟨c, hc, rfl⟩ := List.mem_map.mp hinside
      exact ih r (r.mem_of_leads hlinked hc hleads)

/-- Every block that is left is reached, if every block was. -/
theorem rejoined_reached (h : g.Formed) (hlinked : g.Linked) (hall : g.AllReached) :
    g.rejoined.connected.AllReached := by
  intro l hl
  rw [connected_labels] at hl
  have hmem := (rejoined_labels_sublist g).subset hl
  obtain ⟨r, hr⟩ := Run.exists_of_mem hmem
  rw [r.eq_first h.labels_nodup hr hl]
  exact h.reached_run hlinked (hall l hmem) r hr

end Formed

/-! ## Pruning -/

/-- A graph whose edges are up to date and whose blocks are all reached. -/
structure Pruned (g : Graph) : Prop where
  formed : g.Formed
  linked : g.Linked
  reached : g.AllReached

/-- Joining keeps all this. -/
theorem Pruned.merged {g : Graph} (h : g.Pruned) : g.merged.Pruned := by
  rw [merged_eq]
  split
  · exact h
  · exact ⟨h.formed.rejoined.connected, h.formed.rejoined.linked,
      h.formed.rejoined_reached h.linked h.reached⟩

theorem Formed.merged_refined {g : Graph} (h : g.Formed) {P : Platform} :
    Refined P g g.merged := by
  rw [merged_eq]
  split
  · exact Refined.refl P g
  · exact h.rejoined_refined.trans (.of_eq (connected_outline _) rfl)

/-- Pruning leaves a graph in which every block is reached. -/
theorem Formed.pruned {g : Graph} (h : g.Formed) (hlinked : g.Linked) : g.pruned.Pruned := by
  unfold Graph.pruned
  split
  · rename_i hempty
    exact ⟨h, hlinked, (unreachable_eq_nil_iff h hlinked).mp (by simpa using hempty)⟩
  · exact Pruned.merged ⟨h.removeUnreachable hlinked, h.removeUnreachable_linked hlinked,
      h.removeUnreachable_reached hlinked⟩

end Graph

end Untangle
