/-
  Untangle.Proofs.Graph.Kept

  What a stage keeps of a graph besides its form: what a run can show, the regions, and
  where instructions come from. Edits that each belong to a block are taken block by block,
  so a stage is known when it is known what it makes of the code of one block.
-/
import Untangle.Proofs.Graph.Edited
import Untangle.Proofs.Graph.Refined

namespace Untangle

/-- The instruction is of a kind that stages make: a constant, a discard, or a branch. -/
def Instruction.IsMade (ins : Instruction) : Prop :=
  ins.opcode = some .pushConst ∨ ins.opcode = some .pop ∨ ins.opcode = some .branch

namespace Graph

/-- The second graph is the first one after some work on it. -/
structure Kept (P : Platform) (g g' : Graph) : Prop where
  refined : Refined P g g'
  terminators : g'.terminators = g.terminators
  regions : g'.spans.map (·.region) = g.spans.map (·.region)
  exits : g'.exits ⊆ g.exits
  drawn : ∀ j ∈ g'.code, j ∈ g.code ∨ j.IsMade

namespace Kept

variable {P : Platform} {g g' g'' : Graph}

theorem refl (P : Platform) (g : Graph) : Kept P g g :=
  ⟨Refined.refl P g, rfl, rfl, List.Subset.refl _, fun _ hj => Or.inl hj⟩

theorem trans (h : Kept P g g') (h' : Kept P g' g'') : Kept P g g'' where
  refined := h.refined.trans h'.refined
  terminators := h'.terminators.trans h.terminators
  regions := h'.regions.trans h.regions
  exits := List.Subset.trans h'.exits h.exits
  drawn j hj := (h'.drawn j hj).elim (h.drawn j) Or.inr

end Kept

end Graph

/-- Edits of the instructions of each block that leave the graph well-formed. -/
structure Edit.Suits (g : Graph) (edits : Block → List Edit) : Prop where
  within : ∀ b ∈ g.blocks, ∀ e ∈ edits b, e.Within b
  mild : ∀ b ∈ g.blocks, ∀ ins ∈ b.code, Mild (edits b) ins

namespace Edit

/-- The instruction that takes the place of another is that one, or made. -/
theorem mem_outcome_drawn {edits : List Edit} {ins j : Instruction} (hmild : Mild edits ins)
    {number : Int → Int} (hj : j ∈ outcome edits number ins) : j = ins ∨ j.IsMade := by
  rcases mem_outcome hj with rfl | ⟨op, hop, rfl⟩
  · rcases turned_cases edits ins with ⟨v, -, hv⟩ | ⟨t, -, ht⟩ | hsame
    · exact Or.inr (Or.inl (by rw [hv]; rfl))
    · exact Or.inr (Or.inr (Or.inr (by rw [ht]; rfl)))
    · exact Or.inl hsame
  · exact Or.inr (Or.inr (Or.inl (by rw [hmild.opcode op hop])))

variable {g : Graph} {edits : Block → List Edit}

theorem Suits.about (h : Suits g edits) :
    ∀ e ∈ g.blocks.flatMap edits, ∃ l u, e.About g l u := by
  intro e he
  obtain ⟨b, hb, he⟩ := List.mem_flatMap.mp he
  exact (h.within b hb e he).about hb

theorem Suits.mild_all (h : Suits g edits) (hformed : g.Formed) :
    ∀ ins ∈ g.code, Mild (g.blocks.flatMap edits) ins :=
  mild_blocks hformed.numbered h.within h.mild

end Edit

namespace Graph

/-- A block keeps its end when the instructions that end a run stay as they are, and no others
    come to end one. -/
theorem keepsEnd_flatMap {terminators : List Value} {old : List Instruction}
    {f : Instruction → List Instruction}
    (hstraight : ∀ ins ∈ old.dropLast, ins.endsRun terminators = false)
    (hstays : ∀ ins ∈ old, ins.endsRun terminators = true → f ins = [ins])
    (hcomes : ∀ ins ∈ old, ins.endsRun terminators = false →
      ∀ j ∈ f ins, j.endsRun terminators = false) :
    KeepsEnd terminators old (old.flatMap f) := by
  constructor
  · intro last hlast hends
    obtain ⟨init, rfl⟩ := List.getLast?_eq_some_iff.mp hlast
    rw [List.flatMap_append, List.flatMap_singleton, hstays last (List.mem_of_getLast? hlast) hends,
      List.getLast?_concat]
  · intro hlast j hj
    obtain ⟨ins, hins, hj⟩ := List.mem_flatMap.mp hj
    refine hcomes ins hins ?_ j hj
    rcases List.eq_nil_or_concat old with hnil | ⟨init, last, hold⟩
    · rw [hnil] at hins; cases hins
    · rw [List.concat_eq_append] at hold
      rw [hold] at hins hlast hstraight
      rw [List.dropLast_concat] at hstraight
      rcases List.mem_append.mp hins with hins | hins
      · exact hstraight ins hins
      · rw [List.mem_singleton.mp hins]
        exact hlast last List.getLast?_concat

open Edit

/-- A graph after edits that suit it: each block has the code that its own edits give. -/
structure Changed (g g' : Graph) (edits : Block → List Edit) (number : Int → Int) : Prop where
  formed : g'.Formed
  linked : g'.Linked
  reworked : Reworked g g'
  fresh : ∀ v, g.fresh ≤ number v
  outline : g'.outline
    = g.outline.replace fun e => e.2.flatMap (outcome (g.blocks.flatMap edits) number)
  each : ∀ b ∈ g.blocks, ∀ ins ∈ b.code,
    outcome (g.blocks.flatMap edits) number ins = outcome (edits b) number ins

theorem Formed.changed {g : Graph} (h : g.Formed) (hlinked : g.Linked)
    {edits : Block → List Edit} (hsuits : Suits g edits) :
    ∃ number, Changed g (g.edited (g.blocks.flatMap edits)).graph edits number := by
  have heach (number : Int → Int) (b : Block) (hb : b ∈ g.blocks) (ins : Instruction)
      (hins : ins ∈ b.code) :
      outcome (g.blocks.flatMap edits) number ins = outcome (edits b) number ins :=
    outcome_blocks h.numbered hsuits.within hb hins number
  by_cases hsome : g.blocks.flatMap edits = []
  · -- Without edits the graph is as it was.
    refine ⟨fun _ => g.fresh, ?_, ?_, ?_, fun _ => Int.le_refl _, ?_, heach _⟩ <;> rw [hsome]
    · exact h
    · exact hlinked
    · exact Reworked.refl g
    · show g.outline = g.outline.map fun e => (e.1, e.2.flatMap fun ins => [ins])
      simp
  · obtain ⟨hformed, hlinked'⟩ := h.edited hsuits.about hsome (hsuits.mild_all h)
    obtain ⟨-, -, -, hreworked, -, number, hfresh, houtline⟩ :=
      edited_spec h.numbered hsuits.about hsome
    exact ⟨number, hformed, hlinked', hreworked, hfresh, houtline, heach number⟩

namespace Changed

variable {g g' : Graph} {edits : Block → List Edit} {number : Int → Int}

theorem blocks (h : Changed g g' edits number) {b : Block} (hb : b ∈ g.blocks) :
    b.code.flatMap (outcome (g.blocks.flatMap edits) number)
      = b.code.flatMap (outcome (edits b) number) :=
  List.flatMap_congr (h.each b hb)

/-- The blocks of the first graph are those of its outline. -/
theorem forall_outline (h : Changed g g' edits number)
    {p : Int → List Instruction → List Instruction → Prop}
    (hp : ∀ b ∈ g.blocks, p b.label b.code (b.code.flatMap (outcome (edits b) number))) :
    ∀ e ∈ g.outline, p e.1 e.2 (e.2.flatMap (outcome (g.blocks.flatMap edits) number)) := by
  intro e he
  obtain ⟨b, hb, hlabel, hcode⟩ := exists_block_of_mem he
  rw [← hlabel, ← hcode, h.blocks hb]
  exact hp b hb

/-- The code of a changed graph is that of its blocks changed. -/
theorem code (h : Changed g g' edits number) :
    g'.code = g.blocks.flatMap fun b => b.code.flatMap (outcome (edits b) number) := by
  rw [← Outline.code_outline, h.outline, code_replace, Outline.code_outline, Graph.code,
    List.flatMap_assoc]
  exact List.flatMap_congr fun b hb => h.blocks hb

/-- A changed graph is the first one after work on it, when the code of each block shows what
    it showed, wherever a property of the states in front of the blocks holds. -/
theorem kept (h : Changed g g' edits number) (hformed : g.Formed) (hsuits : Suits g edits)
    {P : Platform} {inv : Int → Moment → Prop} (hkeeps : Outline.Keeps P g.outline inv)
    (hshows : ∀ b ∈ g.blocks, ∀ σ, inv b.label σ → Turn.Shows (Instruction.actAll P b.code σ)
      (Instruction.actAll P (b.code.flatMap (outcome (edits b) number)) σ))
    (hroots : ∀ l ∈ g.roots, ∀ σ, inv l σ) : Kept P g g' where
  terminators := h.reworked.terminators
  regions := by rw [h.reworked.spans]
  exits := by rw [h.reworked.exits]; exact List.Subset.refl _
  drawn := by
    rw [h.code]
    intro j hj
    obtain ⟨b, hb, hj⟩ := List.mem_flatMap.mp hj
    obtain ⟨ins, hins, hj⟩ := List.mem_flatMap.mp hj
    rcases mem_outcome_drawn (hsuits.mild b hb ins hins) hj with rfl | hkind
    · exact Or.inl (mem_code_of_mem (mem_outline_of_mem hb) hins)
    · exact Or.inr hkind
  refined := by
    refine Refined.of_rewrites hformed ⟨hkeeps, ?_⟩ h.outline h.reworked.spans ?_ ?_
    · intro e he σ hinv
      exact h.forall_outline (p := fun l old new => ∀ σ, inv l σ →
        Turn.Shows (Instruction.actAll P old σ) (Instruction.actAll P new σ)) hshows e he σ hinv
    · intro e rest heq
      refine hroots e.1 ?_
      rw [hformed.roots_eq, ← Outline.labels_outline, heq]
      exact List.mem_append_left _ List.mem_cons_self
    · intro s hs l hl
      exact hroots l (List.mem_append_right _ (List.mem_filterMap.mpr ⟨s, hs, hl⟩))

/-- A changed graph whose code shows what it showed from all states. -/
theorem kept_always (h : Changed g g' edits number) (hformed : g.Formed)
    (hsuits : Suits g edits) {P : Platform}
    (hshows : ∀ b ∈ g.blocks, ∀ σ, Turn.Shows (Instruction.actAll P b.code σ)
      (Instruction.actAll P (b.code.flatMap (outcome (edits b) number)) σ)) : Kept P g g' :=
  have hkeeps : Outline.Keeps P g.outline fun _ _ => True :=
    ⟨fun _ _ _ _ _ _ _ _ _ => trivial, fun _ _ _ _ _ _ _ _ _ _ => trivial⟩
  h.kept hformed hsuits hkeeps (fun b hb σ _ => hshows b hb σ) fun _ _ _ => trivial

/-- Where the end of each block is kept, every block stays reached. -/
theorem reached (h : Changed g g' edits number) (hformed : g.Formed) (hlinked : g.Linked)
    (hends : ∀ b ∈ g.blocks,
      KeepsEnd g.terminators b.code (b.code.flatMap (outcome (edits b) number)))
    (hall : g.AllReached) : g'.AllReached :=
  hformed.reached_of_ends hlinked h.formed h.linked h.reworked h.outline
    (h.forall_outline (p := fun _ old new => KeepsEnd g.terminators old new) hends) hall

end Changed

end Graph

end Untangle
