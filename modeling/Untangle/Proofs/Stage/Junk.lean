/-
  Untangle.Proofs.Stage.Junk

  Dropping junk. A no-op does nothing, and a duplicate with the discard behind it does nothing
  either, unless the stack is empty in front of them. What is left of a block therefore shows
  what the block shows, up to a value that is missing on the stack.
-/
import Untangle.Proofs.Graph.Rewritten
import Untangle.Proofs.Stage.Work
import Untangle.Stage.Junk

namespace Untangle

namespace Junk

theorem sift_concat (code : List Instruction) (ins : Instruction) :
    sift (code ++ [ins]) = (sift code).take ins := by
  unfold sift
  rw [List.foldl_append]
  rfl

/-- What can come of one more instruction. -/
theorem take_cases (s : Sifted) (ins : Instruction) :
    (ins.opcode = some .nop ∧ s.take ins = { s with dropped := s.dropped ++ [ins] })
      ∨ (ins.opcode = some .pop ∧ ∃ dup rest, s.kept = dup :: rest ∧ dup.opcode = some .dup
        ∧ s.take ins = { kept := rest, dropped := s.dropped ++ [dup, ins] })
      ∨ (ins.opcode ≠ some .nop
        ∧ (ins.opcode = some .pop → ∀ before rest, s.kept = before :: rest →
          before.opcode ≠ some .dup)
        ∧ s.take ins = { s with kept := ins :: s.kept }) := by
  unfold Sifted.take
  split
  · rename_i hop
    exact Or.inl ⟨hop, rfl⟩
  · rename_i before rest hop hkept
    split
    · rename_i hdup
      exact Or.inr (Or.inl ⟨hop, before, rest, hkept, by simpa using hdup, rfl⟩)
    · rename_i hnot
      refine Or.inr (Or.inr ⟨by rw [hop]; nofun, fun _ b r heq => ?_, rfl⟩)
      rw [hkept] at heq
      cases heq
      simpa using hnot
  · rename_i hnop hpop
    refine Or.inr (Or.inr ⟨fun h => hnop h, fun h b r heq => ?_, rfl⟩)
    exact absurd heq (hpop b r h)

/-- Sifting takes nothing from elsewhere. -/
theorem sift_subset (code : List Instruction) :
    (∀ ins ∈ (sift code).kept, ins ∈ code) ∧ ∀ ins ∈ (sift code).dropped, ins ∈ code := by
  induction code using List.reverseRecOn with
  | nil => exact ⟨fun _ h => absurd h List.not_mem_nil, fun _ h => absurd h List.not_mem_nil⟩
  | append_singleton code ins ih =>
    obtain ⟨hkept, hdropped⟩ := ih
    rw [sift_concat]
    have hself : ins ∈ code ++ [ins] := List.mem_append_right _ (List.mem_singleton_self _)
    rcases take_cases (sift code) ins with ⟨-, htake⟩ | ⟨-, dup, rest, hcons, -, htake⟩
      | ⟨-, -, htake⟩
    · rw [htake]
      refine ⟨fun i hi => List.mem_append_left _ (hkept i hi), fun i hi => ?_⟩
      rcases List.mem_append.mp hi with hi | hi
      · exact List.mem_append_left _ (hdropped i hi)
      · rw [List.mem_singleton.mp hi]; exact hself
    · rw [htake]
      rw [hcons] at hkept
      refine ⟨fun i hi => List.mem_append_left _ (hkept i (List.mem_cons_of_mem _ hi)),
        fun i hi => ?_⟩
      rcases List.mem_append.mp hi with hi | hi
      · exact List.mem_append_left _ (hdropped i hi)
      · rcases List.mem_cons.mp hi with rfl | hi
        · exact List.mem_append_left _ (hkept _ List.mem_cons_self)
        · rw [List.mem_singleton.mp hi]; exact hself
    · rw [htake]
      refine ⟨fun i hi => ?_, fun i hi => List.mem_append_left _ (hdropped i hi)⟩
      rcases List.mem_cons.mp hi with rfl | hi
      · exact hself
      · exact List.mem_append_left _ (hkept i hi)

/-- What is kept and what is dropped is the code. -/
theorem sift_perm (code : List Instruction) :
    ((sift code).kept ++ (sift code).dropped).Perm code := by
  induction code using List.reverseRecOn with
  | nil => exact .refl _
  | append_singleton code ins ih =>
    have hmore := ih.append_right [ins]
    rw [sift_concat]
    rcases take_cases (sift code) ins with ⟨-, htake⟩ | ⟨-, dup, rest, hcons, -, htake⟩
      | ⟨-, -, htake⟩
    · rw [htake]
      rwa [List.append_assoc] at hmore
    · -- The duplicate is dropped behind what was dropped before it.
      rw [htake]
      refine .trans ?_ hmore
      rw [hcons]
      simp only [List.cons_append, List.append_assoc]
      rw [← List.append_assoc, ← List.append_assoc rest]
      exact List.perm_middle
    · rw [htake]
      exact (List.perm_append_singleton _ _).symm.trans hmore

/-- What is kept is in order. -/
theorem sift_sublist (code : List Instruction) : (sift code).kept.reverse.Sublist code := by
  induction code using List.reverseRecOn with
  | nil => exact .refl _
  | append_singleton code ins ih =>
    rw [sift_concat]
    rcases take_cases (sift code) ins with ⟨-, htake⟩ | ⟨-, dup, rest, hcons, -, htake⟩
      | ⟨-, -, htake⟩
    · rw [htake]
      exact ih.trans (List.sublist_append_left _ _)
    · rw [htake]
      rw [hcons, List.reverse_cons] at ih
      exact ((List.sublist_append_left _ _).trans ih).trans (List.sublist_append_left _ _)
    · rw [htake, List.reverse_cons]
      exact ih.append_right [ins]

/-- Whether an instruction is left when others are dropped. -/
def stays (dropped : List Instruction) (ins : Instruction) : Bool :=
  dropped.all fun d => d.uid != ins.uid

theorem stays_append (dropped more : List Instruction) (ins : Instruction) :
    stays (dropped ++ more) ins = (stays dropped ins && stays more ins) :=
  List.all_append

theorem stays_of_forall {dropped : List Instruction} {ins : Instruction}
    (h : ∀ d ∈ dropped, d.uid ≠ ins.uid) : stays dropped ins = true :=
  List.all_eq_true.mpr fun d hd => by simpa using h d hd

/-- What is kept is the code without what is dropped. -/
theorem filter_stays {code : List Instruction} (hnodup : (code.map (·.uid)).Nodup) :
    code.filter (stays (sift code).dropped) = (sift code).kept.reverse := by
  induction code using List.reverseRecOn with
  | nil => rfl
  | append_singleton code ins ih =>
    rw [List.map_append, List.nodup_append] at hnodup
    obtain ⟨hnodup, -, hapart⟩ := hnodup
    have hih := ih hnodup
    have hnew : ∀ i ∈ code, ins.uid ≠ i.uid := fun i hi heq =>
      hapart _ (List.mem_map_of_mem hi) _ (List.mem_singleton_self _) heq.symm
    have hself (dropped : List Instruction) : stays (dropped ++ [ins]) ins = false := by
      rw [stays_append]
      simp [stays]
    rw [sift_concat, List.filter_append]
    rcases take_cases (sift code) ins with ⟨-, htake⟩ | ⟨-, dup, rest, hcons, -, htake⟩
      | ⟨-, -, htake⟩
    · have hsame : ∀ i ∈ code, stays ((sift code).dropped ++ [ins]) i
          = stays (sift code).dropped i := by
        intro i hi
        have hother : stays [ins] i = true :=
          stays_of_forall fun d hd => List.mem_singleton.mp hd ▸ hnew i hi
        rw [stays_append, hother, Bool.and_true]
      rw [htake]
      dsimp only
      rw [List.filter_congr hsame, hih, List.filter_cons_of_neg (by rw [hself]; decide),
        List.filter_nil, List.append_nil]
    · -- The duplicate is the last of what was kept, and goes too.
      have hsame : ∀ i ∈ code, stays ((sift code).dropped ++ [dup, ins]) i
          = (stays [dup] i && stays (sift code).dropped i) := by
        intro i hi
        rw [stays_append, Bool.and_comm]
        congr 1
        show (dup.uid != i.uid && (ins.uid != i.uid && true)) = (dup.uid != i.uid && true)
        have : (ins.uid != i.uid) = true := by simpa using hnew i hi
        rw [this, Bool.true_and]
      have hlast : stays ((sift code).dropped ++ [dup, ins]) ins = false := by
        rw [show (sift code).dropped ++ [dup, ins]
          = ((sift code).dropped ++ [dup]) ++ [ins] by simp]
        exact hself _
      have hkept : (((sift code).kept.reverse).map (·.uid)).Nodup := by
        rw [← hih]
        exact hnodup.sublist (List.filter_sublist.map _)
      rw [hcons, List.reverse_cons, List.map_append, List.nodup_append] at hkept
      have hrest : ∀ i ∈ rest.reverse, stays [dup] i = true := fun i hi =>
        stays_of_forall fun d hd heq => hkept.2.2 _ (List.mem_map_of_mem hi) _
          (List.mem_map_of_mem hd) heq.symm
      rw [htake]
      dsimp only
      rw [List.filter_congr hsame, ← List.filter_filter, hih, hcons, List.reverse_cons,
        List.filter_append, List.filter_eq_self.mpr hrest,
        List.filter_cons_of_neg (by simp [stays]),
        List.filter_cons_of_neg (by rw [hlast]; decide)]
      simp
    · rw [htake]
      have hstays : stays (sift code).dropped ins = true :=
        stays_of_forall fun d hd => Ne.symm (hnew d ((sift_subset code).2 d hd))
      dsimp only
      rw [hih, List.filter_cons_of_pos hstays, List.filter_nil, List.reverse_cons]

/-! ## Running what is kept -/

theorem act_nop (P : Platform) {ins : Instruction} (h : ins.opcode = some .nop) (σ : Moment) :
    ins.act P σ = .next σ := by
  unfold Instruction.act Instruction.perform
  rw [Instruction.copy_opcode, h]

/-- A duplicate and the discard behind it do nothing, unless the stack is empty. -/
theorem act_dup_pop (P : Platform) {dup pop : Instruction} (hdup : dup.opcode = some .dup)
    (hpop : pop.opcode = some .pop) (σ : Moment) :
    (dup.act P σ).andThen (pop.act P) = .next σ
      ∨ (dup.act P σ).andThen (pop.act P) = .halted .underflow σ := by
  obtain ⟨values, locals, seen⟩ := σ
  unfold Instruction.act Instruction.perform
  rw [Instruction.copy_opcode, hdup]
  cases values with
  | nil => exact Or.inr rfl
  | cons v values =>
    left
    dsimp only [Moment.pop?_cons, Turn.andThen_next]
    rw [Instruction.copy_opcode, hpop]
    rfl

/-- What follows a turn that shows another one. -/
theorem shows_andThen {turn turn' : Turn} (h : Turn.Shows turn turn') (P : Platform)
    (code : List Instruction) :
    Turn.Shows (turn.andThen (Instruction.actAll P code))
      (turn'.andThen (Instruction.actAll P code)) := by
  cases h with
  | same => exact .same _
  | excused hseen =>
    refine .excused ?_
    cases turn' with
    | next σ => exact hseen.trans (Instruction.seen_suffix_actAll P code σ)
    | jump t σ => exact hseen
    | halted how σ => exact hseen

theorem shows_trans {turn turn' turn'' : Turn} (h : Turn.Shows turn turn')
    (h' : Turn.Shows turn' turn'') : Turn.Shows turn turn'' := by
  cases h with
  | same => exact h'
  | excused hseen =>
    cases h' with
    | same => exact .excused hseen
    | excused hseen' => exact .excused (hseen.trans hseen')

/-- What is kept of a block shows what the block shows. -/
theorem sift_shows (P : Platform) (code : List Instruction) (σ : Moment) :
    Turn.Shows (Instruction.actAll P code σ)
      (Instruction.actAll P (sift code).kept.reverse σ) := by
  induction code using List.reverseRecOn with
  | nil => exact .same _
  | append_singleton code ins ih =>
    have hmore := shows_andThen ih P [ins]
    rw [sift_concat, Instruction.actAll_append]
    rcases take_cases (sift code) ins with ⟨hnop, htake⟩ | ⟨hpop, dup, rest, hcons, hdup, htake⟩
      | ⟨-, -, htake⟩
    · rw [htake]
      refine shows_trans hmore ?_
      cases Instruction.actAll P (sift code).kept.reverse σ with
      | next ρ =>
        rw [Turn.andThen_next, Instruction.actAll_singleton, act_nop P hnop]
        exact .same _
      | jump t ρ => exact .same _
      | halted how ρ => exact .same _
    · rw [htake]
      refine shows_trans hmore ?_
      rw [hcons, List.reverse_cons, Instruction.actAll_append, Turn.andThen_assoc]
      cases Instruction.actAll P rest.reverse σ with
      | next ρ =>
        rw [Turn.andThen_next, Instruction.actAll_singleton]
        have hsingle : Instruction.actAll P [ins] = ins.act P :=
          funext fun τ => Instruction.actAll_singleton P ins τ
        rw [hsingle]
        rcases act_dup_pop P hdup hpop ρ with hpair | hpair
        · rw [hpair]
          exact .same _
        · rw [hpair]
          exact .excused (List.suffix_refl _)
      | jump t ρ => exact .same _
      | halted how ρ => exact .same _
    · rw [htake, List.reverse_cons, Instruction.actAll_append]
      exact hmore

/-! ## The edits -/

/-- What is dropped only works on the top of the stack. -/
theorem droppable_of_dropped (code : List Instruction) :
    ∀ ins ∈ (sift code).dropped, ins.isDroppable = true := by
  have hkind {ins : Instruction} {op : Opcode} (h : ins.opcode = some op)
      (hop : op = .nop ∨ op = .dup ∨ op = .pop) : ins.isDroppable = true := by
    unfold Instruction.isDroppable
    rw [h]
    rcases hop with rfl | rfl | rfl <;> rfl
  induction code using List.reverseRecOn with
  | nil => exact fun _ h => absurd h List.not_mem_nil
  | append_singleton code ins ih =>
    rw [sift_concat]
    intro i hi
    rcases take_cases (sift code) ins with ⟨hnop, htake⟩ | ⟨hpop, dup, rest, -, hdup, htake⟩
      | ⟨-, -, htake⟩
    · rw [htake] at hi
      rcases List.mem_append.mp hi with hi | hi
      · exact ih i hi
      · rw [List.mem_singleton.mp hi]
        exact hkind hnop (Or.inl rfl)
    · rw [htake] at hi
      rcases List.mem_append.mp hi with hi | hi
      · exact ih i hi
      · rcases List.mem_cons.mp hi with rfl | hi
        · exact hkind hdup (Or.inr (Or.inl rfl))
        · rw [List.mem_singleton.mp hi]
          exact hkind hpop (Or.inr (Or.inr rfl))
    · rw [htake] at hi
      exact ih i hi

/-- What is dropped neither stops a run nor leads it elsewhere. -/
theorem straight_of_dropped (terminators : List Value) (code : List Instruction) :
    ∀ ins ∈ (sift code).dropped, ins.endsRun terminators = false := fun ins hins =>
  Instruction.Rewritten.straight_of_droppable (droppable_of_dropped code ins hins) terminators

theorem changes_of_edits {b : Block} : ∀ e ∈ edits b, e.change = .remove := by
  intro e he
  obtain ⟨d, -, rfl⟩ := List.mem_map.mp he
  rfl

/-- Of a block what is kept stays, and the rest goes. -/
theorem outcome_edits (b : Block) (number : Int → Int) (ins : Instruction) :
    Edit.outcome (edits b) number ins = if stays (inCode b.code) ins then [ins] else [] := by
  have hother {α : Type} (pick : Change → Option α) (hpick : pick .remove = none) :
      Edit.asked (edits b) pick ins.uid = none := by
    refine Edit.asked_of_changes (fun e he => ?_) ins.uid
    rw [changes_of_edits e he]
    exact hpick
  have hgone : (Edit.asked (edits b) Change.removal? ins.uid).isSome
      = !stays (inCode b.code) ins := by
    unfold edits
    generalize inCode b.code = dropped
    induction dropped with
    | nil => rfl
    | cons d dropped ih =>
      rw [List.map_cons, Edit.asked_ofInstruction, stays, List.all_cons, Bool.not_and,
        ← stays, ← ih]
      by_cases hd : d.uid = ins.uid
      · simp [hd, Change.removal?]
      · simp [hd]
  unfold Edit.outcome Edit.turned
  rw [hother Change.opcode? rfl, hother Change.constant? rfl, hother Change.target? rfl, hgone]
  cases stays (inCode b.code) ins <;> rfl

theorem flatMap_outcome {b : Block} (hnodup : (b.code.map (·.uid)).Nodup) (number : Int → Int) :
    b.code.flatMap (Edit.outcome (edits b) number) = (sift b.code).kept.reverse := by
  rw [← filter_stays hnodup, ← flatMap_ite]
  exact List.flatMap_congr fun ins _ => outcome_edits b number ins

/-- The edits that drop junk suit every graph. -/
theorem suits (g : Graph) : Edit.Suits g edits where
  within b _ e he := by
    obtain ⟨ins, hins, rfl⟩ := List.mem_map.mp he
    exact Edit.within_ofInstruction ((sift_subset b.code).2 ins hins) _ _
  mild b _ ins _ := by
    constructor
    all_goals
      intro a ha
      obtain ⟨e, he, -, hpick⟩ := Edit.exists_of_asked ha
      rw [changes_of_edits e he] at hpick
      cases hpick

/-- Junk is dropped, and nothing else. -/
theorem gentle {b : Block} (hnodup : (b.code.map (·.uid)).Nodup) {ins : Instruction}
    (hins : ins ∈ b.code) : Edit.Gentle (edits b) ins := by
  constructor
  · intro hsome
    obtain ⟨u, hasked⟩ := Option.isSome_iff_exists.mp hsome
    obtain ⟨e, he, hnames, -⟩ := Edit.exists_of_asked hasked
    obtain ⟨d, hd, rfl⟩ := List.mem_map.mp he
    rw [Edit.names_ofInstruction] at hnames
    rw [← List.inj_on_of_nodup_map hnodup ((sift_subset b.code).2 d hd) hins (eq_of_beq hnames)]
    exact droppable_of_dropped b.code d hd
  all_goals
    intro a ha
    obtain ⟨e, he, -, hpick⟩ := Edit.exists_of_asked ha
    rw [changes_of_edits e he] at hpick
    cases hpick

/-- A block keeps its end when its junk goes. -/
theorem keepsEnd {terminators : List Value} {b : Block} (hnodup : (b.code.map (·.uid)).Nodup)
    (hstraight : ∀ ins ∈ b.code.dropLast, ins.endsRun terminators = false) (number : Int → Int) :
    Graph.KeepsEnd terminators b.code (b.code.flatMap (Edit.outcome (edits b) number)) := by
  refine Graph.keepsEnd_flatMap hstraight (fun ins hins hends => ?_) fun ins _ hends j hj => ?_
  · have hstays : stays (inCode b.code) ins = true := by
      refine stays_of_forall fun d hd huid => ?_
      have hsame : d = ins :=
        List.inj_on_of_nodup_map hnodup ((sift_subset b.code).2 d hd) hins huid
      rw [← hsame, straight_of_dropped terminators b.code d hd] at hends
      cases hends
    rw [outcome_edits, if_pos hstays]
  · rw [outcome_edits] at hj
    split at hj
    · rw [List.mem_singleton.mp hj]; exact hends
    · cases hj

/-! ## The graph without junk -/

/-- The graph without the junk of its blocks. -/
def removed (g : Graph) : Graph := (g.edited (g.blocks.flatMap edits)).graph

/-- How much junk there is. -/
def amount (g : Graph) : Nat := (g.edited (g.blocks.flatMap edits)).count

variable {g : Graph}

theorem removed_refreshed (g : Graph) (n : Int) :
    removed { g with fresh := n } = { removed g with fresh := n } := by
  refine congrArg (·.graph) (Graph.edited_refreshed (fun e he => ?_) g n)
  obtain ⟨b, -, he⟩ := List.mem_flatMap.mp he
  exact changes_of_edits e he

theorem amount_refreshed (g : Graph) (n : Int) : amount { g with fresh := n } = amount g := by
  refine congrArg (·.count) (Graph.edited_refreshed (fun e he => ?_) g n)
  obtain ⟨b, -, he⟩ := List.mem_flatMap.mp he
  exact changes_of_edits e he

/-- Of blocks and instructions that can be told apart, what is kept stays where it is. Nothing
    new comes in, so it does not matter which uids are new. -/
theorem removed_spec (hlabels : g.labels.Nodup) (huids : (g.code.map (·.uid)).Nodup) :
    (g.blocks.flatMap edits ≠ [] → 0 < amount g) ∧ Graph.Reworked g (removed g)
      ∧ (removed g = g ∨ ∃ changed : Graph, removed g = changed.connected)
      ∧ List.Forall₂ (fun b b' : Block => b'.label = b.label
          ∧ b'.code = (sift b.code).kept.reverse) g.blocks (removed g).blocks := by
  obtain ⟨bound, hbound⟩ := exists_above (g.code.map (·.uid))
  have hnumbered : ({ g with fresh := bound } : Graph).Numbered :=
    ⟨hlabels, huids, fun ins hins => hbound _ (List.mem_map_of_mem hins)⟩
  have hsuits := suits ({ g with fresh := bound } : Graph)
  obtain ⟨hreworked, number, -, hblocks⟩ := Graph.edited_blocks hnumbered hsuits.within
  change Graph.Reworked _ (removed { g with fresh := bound }) at hreworked
  change List.Forall₂ _ g.blocks (removed { g with fresh := bound }).blocks at hblocks
  rw [removed_refreshed] at hreworked hblocks
  have hfresh : (removed g).fresh = g.fresh := by
    have hsame : removed g = { removed g with fresh := g.fresh } := removed_refreshed g g.fresh
    rw [hsame]
  refine ⟨fun hsome => ?_, ?_, ?_, ?_⟩
  · have hpos := (Graph.edited_spec hnumbered hsuits.about hsome).2.1
    change 0 < amount { g with fresh := bound } at hpos
    rwa [amount_refreshed] at hpos
  · exact { hreworked with fresh := hfresh.ge }
  · by_cases hsome : g.blocks.flatMap edits = []
    · left
      rw [removed, hsome]
      rfl
    · right
      obtain ⟨-, -, -, -, ⟨changed, hchanged⟩, -⟩ :=
        Graph.edited_spec hnumbered hsuits.about hsome
      change removed { g with fresh := bound } = _ at hchanged
      rw [removed_refreshed] at hchanged
      refine ⟨{ changed with fresh := g.fresh }, ?_⟩
      show removed g = { changed.connected with fresh := g.fresh }
      rw [← hchanged, ← hfresh]
  · refine (forall₂_mem hblocks).imp ?_
    rintro b b' ⟨hb, -, hlabel, hcode⟩
    exact ⟨hlabel, hcode.trans (flatMap_outcome (hnumbered.block_uids_nodup hb) number)⟩

theorem removed_pruned (h : g.Pruned) : (removed g).Pruned := by
  obtain ⟨number, hchanged⟩ := h.formed.changed h.linked (suits g)
  refine ⟨hchanged.formed, hchanged.linked, hchanged.reached h.formed h.linked ?_ h.reached⟩
  exact fun b hb => keepsEnd (h.formed.block_uids_nodup hb)
    (h.formed.straight _ (Graph.mem_outline_of_mem hb)) number

/-- Dropping junk changes nothing that a run can show. -/
theorem removed_kept (h : g.Formed) (hlinked : g.Linked) (P : Platform) :
    g.Kept P (removed g) := by
  obtain ⟨number, hchanged⟩ := h.changed hlinked (suits g)
  refine hchanged.kept_always h (suits g) fun b hb σ => ?_
  rw [flatMap_outcome (h.block_uids_nodup hb)]
  exact sift_shows P b.code σ

theorem removed_headed (h : g.Headed) (hformed : g.Formed) (hlinked : g.Linked) :
    (removed g).Headed := by
  obtain ⟨number, hchanged⟩ := hformed.changed hlinked (suits g)
  refine h.changed hformed (suits g) hchanged fun b _ _ ins _ =>
    Edit.asked_of_changes (fun e he => ?_) _
  rw [changes_of_edits e he]
  rfl

/-- Without junk the graph is as it was. -/
theorem removed_of_amount (h : g.Formed) (hcount : amount g = 0) : removed g = g := by
  by_cases hsome : g.blocks.flatMap edits = []
  · rw [removed, hsome]
    rfl
  · have hpos := (Graph.edited_spec h.numbered (suits g).about hsome).2.1
    rw [amount] at hcount
    omega

end Junk

/-! ## The stage -/

/-- Dropping junk succeeds where targets can be looked up after it. -/
theorem Stage.eliminateJunk_checked {w : Workbench} (hlabels : w.graph.labels.Nodup)
    (huids : (w.graph.code.map (·.uid)).Nodup)
    (hlasts : (Junk.removed w.graph).checkLasts = .ok ()) :
    ∃ w', eliminateJunk.run w = .ok (Junk.amount w.graph) w'
      ∧ ({ w with graph := Junk.removed w.graph } : Workbench).Alike w' := by
  unfold eliminateJunk
  rw [Work.get_bind]
  refine Work.Says.andThen (Work.says_forM fun e _ => Work.says_logQueued e) fun w₁ halike => ?_
  have happlied : ∃ w₂, (Work.applyEdits (w.graph.blocks.flatMap Junk.edits)).run w₁
      = .ok (Junk.amount w.graph) w₂
        ∧ ({ w₁ with graph := Junk.removed w.graph } : Workbench).Alike w₂ := by
    unfold Junk.removed at hlasts ⊢
    unfold Junk.amount
    by_cases hsome : w.graph.blocks.flatMap Junk.edits = []
    · rw [hsome]
      exact ⟨w₁, rfl, halike.graph, rfl, rfl, rfl⟩
    · have hcount := (Junk.removed_spec hlabels huids).1 hsome
      unfold Junk.amount at hcount
      rw [← halike.graph] at hlasts hcount ⊢
      refine Work.applyEdits_run (fun e he => ?_) hcount hlasts
      obtain ⟨b, -, he⟩ := List.mem_flatMap.mp he
      obtain ⟨d, -, rfl⟩ := List.mem_map.mp he
      exact ⟨b.label, d.uid, rfl, rfl⟩
  obtain ⟨w₂, hedits, halike₂⟩ := happlied
  refine Work.andThen_of_ok hedits ?_
  have halike' := (halike.setGraph _).trans halike₂
  split
  · exact Work.Says.andThen (Work.says_log _ _ _) fun w₃ halike₃ => ⟨w₃, rfl, halike'.trans halike₃⟩
  · exact ⟨w₂, rfl, halike'⟩

/-- Dropping junk succeeds on a well-formed graph. -/
theorem Stage.eliminateJunk_run {w : Workbench} (h : w.graph.Formed) (hlinked : w.graph.Linked) :
    ∃ w', eliminateJunk.run w = .ok (Junk.amount w.graph) w'
      ∧ ({ w with graph := Junk.removed w.graph } : Workbench).Alike w' := by
  obtain ⟨number, hchanged⟩ := h.changed hlinked (Junk.suits w.graph)
  exact eliminateJunk_checked h.labels_nodup h.uids_nodup hchanged.formed.checkLasts

end Untangle
