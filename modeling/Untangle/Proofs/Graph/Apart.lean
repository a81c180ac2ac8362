/-
  Untangle.Proofs.Graph.Apart

  Joining goes as far as it can. Of two blocks that stand next to each other afterwards the
  first ends with a branch or a stop, or a branch names the second, or they lie in different
  regions (`Formed.merged_apart`). The edges that joining looks at as well say no more: what
  leads to a block that no branch names is the block before it, which has been absorbed.
-/
import Untangle.Proofs.Graph.Traced

namespace Untangle

namespace Graph

variable {g : Graph}

/-- Why a block is not joined to the one before it. -/
inductive Apart (g : Graph) (x y : Block) : Prop where
  | ends {last : Instruction} (hlast : x.code.getLast? = some last)
      (hends : last.endsRun g.terminators = true)
  | named {ins : Instruction} {t : Value} (hins : ins ∈ g.code) (ht : t ∈ ins.aims)
      (hnames : t.wholeNumber? = some y.label)
  | regions (h : ¬g.Together x.label y.label)

/-! ## Where joining stops -/

theorem joinRuns_head (g : Graph) (targeted absorbed : List Int) (b : Block) (rest : List Block) :
    ∃ code more, joinRuns g targeted absorbed b rest = { b with code } :: more := by
  induction rest generalizing absorbed b with
  | nil => exact ⟨b.code, [], rfl⟩
  | cons c rest ih =>
    unfold joinRuns
    split
    · exact ih _ _
    · exact ⟨b.code, _, rfl⟩

/-- A block that starts a run of its own has not been joined to the one before. At that point
    the block in front of it had been absorbed. -/
theorem joinRuns_stops {targeted absorbed : List Int} {front rest : List Block} {x b : Block}
    (hblocks : g.blocks = front ++ x :: rest) (hx : x.label ∈ absorbed)
    {before after : List Block} {j j' : Block}
    (hjoined : joinRuns g targeted absorbed b rest = before ++ j :: j' :: after) :
    ∃ front y c behind absorbed, g.blocks = front ++ y :: c :: behind ∧ y.label ∈ absorbed
      ∧ j'.label = c.label ∧ g.joins targeted absorbed j c = false := by
  induction rest generalizing front x b absorbed before with
  | nil =>
    cases before with
    | nil => cases hjoined
    | cons d before =>
      have := (List.cons.inj hjoined).2
      simp at this
  | cons c rest ih =>
    have hblocks' : g.blocks = (front ++ [x]) ++ c :: rest := by rw [hblocks]; simp
    unfold joinRuns at hjoined
    split at hjoined
    · exact ih hblocks' List.mem_cons_self hjoined
    · rename_i hstops
      cases before with
      | cons d before =>
        exact ih hblocks' List.mem_cons_self (List.cons.inj hjoined).2
      | nil =>
        obtain ⟨rfl, hrest⟩ := List.cons.inj hjoined
        obtain ⟨code, more, hhead⟩ := joinRuns_head g targeted [c.label] c rest
        rw [hhead] at hrest
        refine ⟨front, x, c, rest, absorbed, hblocks, hx, ?_, Bool.eq_false_iff.mpr hstops⟩
        rw [← (List.cons.inj hrest).1]

theorem joinedBlocks_stops {before after : List Block} {j j' : Block}
    (hjoined : g.joinedBlocks = before ++ j :: j' :: after) :
    ∃ front y c behind absorbed, g.blocks = front ++ y :: c :: behind ∧ y.label ∈ absorbed
      ∧ j'.label = c.label ∧ g.joins g.targeted absorbed j c = false := by
  unfold joinedBlocks at hjoined
  split at hjoined
  · simp at hjoined
  · rename_i b rest hblocks
    have hblocks' : g.blocks = [] ++ b :: rest := hblocks
    exact joinRuns_stops hblocks' List.mem_cons_self hjoined

/-! ## What is left apart -/

/-- What branches name is a label. -/
theorem Formed.exists_of_targeted (h : g.Formed) {l : Int} (hl : l ∈ g.targeted) :
    l ∈ g.labels ∧ ∃ ins ∈ g.code, ∃ t ∈ ins.aims, t.wholeNumber? = some l := by
  obtain ⟨ins, hins, huids⟩ := List.mem_flatMap.mp hl
  rw [Instruction.targetUids, h.targets_ok hins] at huids
  obtain ⟨t, ht, hnames⟩ := List.mem_filterMap.mp huids
  obtain ⟨l', hl', hnames'⟩ := h.aims hins ht
  rw [hnames] at hnames'
  cases hnames'
  exact ⟨hl', ins, hins, t, ht, hnames⟩

/-- To a block lead branches and the block before it. -/
theorem Formed.leads_cases (h : g.Formed) {front behind : List Block} {y c : Block}
    (hblocks : g.blocks = front ++ y :: c :: behind) {p : Int} (hleads : g.Leads p c.label) :
    (∃ ins ∈ g.code, ∃ t ∈ ins.aims, t.wholeNumber? = some c.label) ∨ p = y.label := by
  obtain ⟨before, code, rest, hsplit, ⟨last, hlast, t, ht, hnames⟩ | ⟨-, hnext⟩⟩ := hleads
  · have hin : last ∈ g.code := mem_code_of_mem (e := (p, code))
      (hsplit ▸ List.mem_append_right _ List.mem_cons_self) (List.mem_of_getLast? hlast)
    exact Or.inl ⟨last, hin, t, ht, hnames⟩
  · obtain ⟨more, hmore⟩ := List.head?_eq_some_iff.mp hnext
    have hlabels : g.labels = (Outline.labels before ++ [p]) ++ c.label :: more := by
      rw [← Outline.labels_outline, hsplit, Outline.labels, List.map_append, List.map_cons,
        show rest.map (·.1) = Outline.labels rest from rfl, hmore, ← List.append_cons]
      rfl
    have hlabels' : g.labels = (front.map (·.label) ++ [y.label]) ++ c.label
        :: behind.map (·.label) := by
      rw [labels, hblocks]
      simp
    have hnodup := h.labels_nodup
    rw [hlabels] at hnodup hlabels'
    obtain ⟨hfront, -⟩ := append_cons_inj_of_nodup hnodup hlabels'
    exact Or.inr (List.cons.inj (List.append_inj' hfront rfl).2).1

/-- The reasons not to join a block. -/
theorem Formed.apart_of_joins (h : g.Formed) (hlinked : g.Linked) {front behind : List Block}
    {y c j : Block} (hblocks : g.blocks = front ++ y :: c :: behind) {absorbed : List Int}
    (hy : y.label ∈ absorbed) (hstops : g.joins g.targeted absorbed j c = false) :
    g.Apart j c := by
  have hc : c ∈ g.blocks := by rw [hblocks]; simp
  have hnamed {l : Int} (hl : l ∈ g.targeted) (heq : l = c.label) : g.Apart j c := by
    obtain ⟨-, ins, hins, t, ht, hnames⟩ := h.exists_of_targeted hl
    exact .named hins ht (heq ▸ hnames)
  simp only [joins, Bool.and_eq_false_iff, Bool.not_eq_false'] at hstops
  rcases hstops with ((((hentry | hfalls) | hpreds) | htargeted) | hcode) | hregions
  · -- Only the first block is the entry.
    cases front with
    | nil => rw [(h.entry y (c :: behind) hblocks).2 c List.mem_cons_self] at hentry; cases hentry
    | cons b front =>
      rw [(h.entry b (front ++ y :: c :: behind) hblocks).2 c (by simp)] at hentry
      cases hentry
  · unfold onlyFalls at hfalls
    cases hlast : j.last? with
    | none => rw [hlast] at hfalls; cases hfalls
    | some last =>
      rw [hlast] at hfalls
      exact .ends hlast (by simpa using hfalls)
  · -- Of what leads to the block, only a branch can have stayed outside.
    rw [List.all_eq_false] at hpreds
    obtain ⟨p, hp, hnot⟩ := hpreds
    rcases h.leads_cases hblocks ((hlinked.preds c hc p).mp hp) with
      ⟨ins, hins, t, ht, hnames⟩ | rfl
    · exact .named hins ht hnames
    · exact absurd (List.contains_iff_mem.mpr hy) hnot
  · exact hnamed (List.contains_iff_mem.mp htargeted) rfl
  · -- An instruction that a branch names is one that labels the block.
    rw [List.all_eq_false] at hcode
    obtain ⟨ins, hins, huid⟩ := hcode
    have htargeted : ins.uid ∈ g.targeted := by simpa using huid
    exact hnamed htargeted (h.own _ (mem_outline_of_mem hc) ins hins
      (h.exists_of_targeted htargeted).1)
  · exact .regions fun htogether => by
      rw [sameRegions_iff.mpr htogether] at hregions
      cases hregions

/-- Blocks that are left lie in the same regions as before. -/
theorem together_rejoined {a b : Int} (ha : a ∈ g.rejoined.labels) (hb : b ∈ g.rejoined.labels)
    (h : g.rejoined.Together a b) : g.Together a b := by
  have hsub := (rejoined_labels_sublist g).subset
  have hkept {l : Int} (hl : l ∈ g.rejoined.labels) : l ∉ g.joinedLabels := by
    have := contains_joinedLabels g (hsub hl)
    rw [List.contains_iff_mem.mpr hl] at this
    simpa using this
  intro s hs
  have := h (s.without g.joinedLabels) (List.mem_map_of_mem hs)
  simpa [Span.without, hkept ha, hkept hb] using this

/-- As many blocks after joining as before are the same blocks. -/
theorem Grouped.eq_of_length {blocks joined : List Block} (h : Grouped g blocks joined)
    (hle : blocks.length ≤ joined.length) : joined = blocks := by
  induction h with
  | nil => rfl
  | @run b bs rest joined hrun hrest ih =>
    have hshort : joined.length ≤ rest.length := by simpa using hrest.labels_sublist.length_le
    rw [List.length_append, List.length_cons, List.length_cons] at hle
    obtain rfl : bs = [] := List.length_eq_zero_iff.mp (by omega)
    rw [glued_nil, ih (by omega)]
    rfl

/-- The blocks after joining, whether their edges are computed afresh or not. -/
theorem merged_outline (hnodup : g.labels.Nodup) : g.merged.outline = g.rejoined.outline := by
  rw [merged_eq]
  split
  · rename_i hnone
    have hall : g.labels.filter (fun l => g.rejoined.labels.contains l) = g.labels :=
      List.filter_eq_self.mpr fun l hl => by
        rw [← contains_joinedLabels g hl, List.isEmpty_iff.mp hnone]
        rfl
    rw [filter_mem_of_sublist hnodup (rejoined_labels_sublist g)] at hall
    have hle : g.blocks.length ≤ g.joinedBlocks.length := by
      simpa [labels, rejoined] using Nat.le_of_eq (congrArg List.length hall.symm)
    exact congrArg (List.map _) ((joinedBlocks_grouped g).eq_of_length hle).symm
  · exact connected_outline _

/-- After joining, blocks that stand next to each other are apart for a reason. -/
theorem Formed.merged_apart (h : g.Formed) (hlinked : g.Linked) {before after : List Block}
    {x y : Block} (hblocks : g.merged.blocks = before ++ x :: y :: after) :
    g.merged.Apart x y := by
  have houtline : g.joinedBlocks.map (fun b => (b.label, b.code))
      = before.map (fun b => (b.label, b.code)) ++ (x.label, x.code) :: (y.label, y.code)
        :: after.map fun b => (b.label, b.code) := by
    rw [show g.joinedBlocks.map (fun b => (b.label, b.code)) = g.rejoined.outline from rfl,
      ← merged_outline h.labels_nodup, outline, hblocks, List.map_append, List.map_cons,
      List.map_cons]
  obtain ⟨before', behind, hjoined, -, hbehind⟩ := List.map_eq_append_iff.mp houtline
  obtain ⟨x', behind, rfl, hx, hbehind⟩ := List.map_eq_cons_iff.mp hbehind
  obtain ⟨y', after', rfl, hy, -⟩ := List.map_eq_cons_iff.mp hbehind
  obtain ⟨hxl, hxc⟩ := Prod.mk.inj hx
  obtain ⟨hyl, -⟩ := Prod.mk.inj hy
  obtain ⟨front, z, c, behind, absorbed, hsplit, hz, hyc, hstops⟩ := joinedBlocks_stops hjoined
  have hapart := h.apart_of_joins hlinked hsplit hz hstops
  have hterminators : g.merged.terminators = g.terminators := by
    rw [merged_eq]
    split <;> rfl
  cases hapart with
  | ends hlast hends => exact .ends (hxc ▸ hlast) (hterminators ▸ hends)
  | named hins ht hnames =>
    exact .named (by rw [merged_code]; exact hins) ht (by rw [hnames, ← hyl, hyc])
  | regions hregions =>
    refine .regions fun htogether => hregions ?_
    rw [hxl, ← hyc, hyl]
    rw [merged_eq] at htogether
    split at htogether
    · exact htogether
    · refine together_rejoined ?_ ?_ htogether
      · show x.label ∈ g.joinedBlocks.map (·.label)
        rw [hjoined, ← hxl]
        simp
      · show y.label ∈ g.joinedBlocks.map (·.label)
        rw [hjoined, ← hyl]
        simp

end Graph

end Untangle
