/-
  Untangle.Proofs.Execution.Outline

  The outline of a graph is its blocks with their labels and their code, and nothing else.
  It is run block by block; a branch enters it at the block that its target labels.

  Running the blocks and running the code that is written out go together
  (`Outline.refines_flow`), so outlines that differ only in where the code is cut show the
  same (`Outline.refines_of_code`).
-/
import Untangle.Proofs.Execution.Flow

namespace Untangle

/-- Blocks with their labels. -/
abbrev Outline := List (Int × List Instruction)

/-- The labels and the code of the blocks of a graph. -/
def Graph.outline (g : Graph) : Outline := g.blocks.map fun b => (b.label, b.code)

namespace Outline

/-- The labels in order. -/
def labels (o : Outline) : List Int := o.map (·.1)

/-- The code of the blocks, one after the other. -/
def code (o : Outline) : List Instruction := o.flatMap (·.2)

/-- The blocks from a label on. -/
def from? (o : Outline) (label : Int) : Option Outline :=
  match o.dropWhile fun e => e.1 != label with
  | [] => none
  | e :: rest => some (e :: rest)

/-- The blocks from the label on that a value names. -/
def enter? (o : Outline) (t : Value) : Option Outline :=
  t.wholeNumber?.bind o.from?

/-- The process of an outline, block by block. -/
def process (P : Platform) (o : Outline) : Process Outline
  | [], σ => .halted .ranOff σ
  | e :: rest, σ => (Instruction.actAll P e.2 σ).land o.enter? rest

theorem process_nil (P : Platform) (o : Outline) (σ : Moment) :
    o.process P [] σ = .halted .ranOff σ := rfl

theorem process_cons (P : Platform) (o : Outline) (e : Int × List Instruction)
    (rest : Outline) (σ : Moment) :
    o.process P (e :: rest) σ = (Instruction.actAll P e.2 σ).land o.enter? rest := rfl

theorem process_records (P : Platform) (o : Outline) : (o.process P).Records := by
  intro place σ
  cases place with
  | nil => exact List.suffix_refl _
  | cons e rest =>
    rw [process_cons, Turn.land_moment]
    exact Instruction.seen_suffix_actAll P e.2 σ

@[simp] theorem code_nil : code [] = [] := rfl

@[simp] theorem code_cons (e : Int × List Instruction) (rest : Outline) :
    code (e :: rest) = e.2 ++ code rest := rfl

@[simp] theorem code_append (o rest : Outline) : code (o ++ rest) = code o ++ code rest :=
  List.flatMap_append

/-- Blocks from a label on are the blocks behind some others, and start with the label. -/
theorem from?_eq_some {o place : Outline} {label : Int} (h : o.from? label = some place) :
    place <:+ o ∧ ∃ c rest, place = (label, c) :: rest := by
  unfold from? at h
  split at h
  · cases h
  · rename_i e rest hdrop
    cases h
    refine ⟨hdrop ▸ List.dropWhile_suffix _, e.2, rest, ?_⟩
    have hhead := List.head?_dropWhile_not (fun e : Int × List Instruction => e.1 != label) o
    rw [hdrop] at hhead
    have : e.1 = label := by simpa using hhead
    rw [← this]

/-- The first block with a label is found. -/
theorem from?_append {o rest : Outline} {label : Int} (c : List Instruction)
    (h : label ∉ o.labels) :
    from? (o ++ (label, c) :: rest) label = some ((label, c) :: rest) := by
  unfold from?
  have hall : ∀ e ∈ o, (e.1 != label) = true := by
    intro e he
    have : e.1 ≠ label := fun heq => h (heq ▸ List.mem_map_of_mem he)
    simpa using this
  rw [List.dropWhile_append_of_pos hall, List.dropWhile_cons_of_neg (by simp)]

/-- An outline splits at the first block with a label. -/
theorem split_at_label {o : Outline} {label : Int} (h : label ∈ o.labels) :
    ∃ before c rest, o = before ++ (label, c) :: rest ∧ label ∉ labels before := by
  induction o with
  | nil => simp [labels] at h
  | cons e o ih =>
    by_cases he : e.1 = label
    · exact ⟨[], e.2, o, by rw [← he]; rfl, List.not_mem_nil⟩
    · have ho : label ∈ labels o := by
        rcases List.mem_cons.mp h with heq | ho
        · exact absurd heq.symm he
        · exact ho
      obtain ⟨before, c, rest, hsplit, hnot⟩ := ih ho
      refine ⟨e :: before, c, rest, by rw [hsplit]; rfl, ?_⟩
      intro hmem
      rcases List.mem_cons.mp hmem with heq | hin
      · exact he heq.symm
      · exact hnot hin

theorem enter?_suffix {o place : Outline} {t : Value} (h : o.enter? t = some place) :
    place <:+ o := by
  obtain ⟨l, -, hl⟩ := Option.bind_eq_some_iff.mp h
  exact (from?_eq_some hl).1

/-- The labels and the code of the outline of a graph are those of the graph. -/
@[simp] theorem labels_outline (g : Graph) : g.outline.labels = g.labels := by
  simp [labels, Graph.outline, Graph.labels, Function.comp_def]

@[simp] theorem code_outline (g : Graph) : g.outline.code = g.code := by
  simp [code, Graph.outline, Graph.code, List.flatMap_map]

/-! ## Writing out an outline -/

/-- The code of the blocks that a branch enters. -/
def codeAt? (o : Outline) (t : Value) : Option (List Instruction) :=
  (o.enter? t).map code

theorem codeAt?_subset {o : Outline} {t : Value} {place : List Instruction}
    (h : o.codeAt? t = some place) : place ⊆ o.code := by
  obtain ⟨blocks, hblocks, rfl⟩ := Option.map_eq_some_iff.mp h
  obtain ⟨before, hbefore⟩ := enter?_suffix hblocks
  rw [← hbefore, code_append]
  exact List.subset_append_right _ _

/-- The code stands where the outline stands after a block. -/
theorem run_segment (P : Platform) (enter? : Value → Option (List Instruction))
    (c rest : List Instruction) (σ : Moment) :
    ∃ k, (flow P enter?).run k (.going (c ++ rest) σ)
        = (Instruction.actAll P c σ).land enter? rest
      ∧ (k = 0 → c = []) := by
  induction c generalizing σ with
  | nil => exact ⟨0, rfl, fun _ => rfl⟩
  | cons ins c ih =>
    rw [Instruction.actAll_cons, List.cons_append]
    cases hact : ins.act P σ with
    | next τ =>
      obtain ⟨k, hk, -⟩ := ih τ
      refine ⟨k + 1, ?_, fun h0 => absurd h0 (Nat.succ_ne_zero k)⟩
      rw [Process.run_succ, flow_cons, hact]
      exact hk
    | jump t τ =>
      refine ⟨1, ?_, fun h0 => absurd h0 (by decide)⟩
      rw [Process.run_succ, Process.run_zero, flow_cons, hact]
      rfl
    | halted how τ =>
      refine ⟨1, ?_, fun h0 => absurd h0 (by decide)⟩
      rw [Process.run_succ, Process.run_zero, flow_cons, hact]
      rfl

/-- Running blocks and running what is written out go together. -/
theorem simulation_flow (P : Platform) (o : Outline) :
    Process.Simulation (fun _ => False) (o.process P) (flow P o.codeAt?)
      (fun place rest _ => rest = code place) List.length where
  excuse _ _ _ _ _ _ _ hf := hf.elim
  going := by
    rintro place _ σ place' σ' rfl hstep
    cases place with
    | nil => rw [process_nil] at hstep; cases hstep
    | cons e rest =>
      obtain ⟨k, hk, hzero⟩ := run_segment P o.codeAt? e.2 (code rest) σ
      rw [process_cons] at hstep
      rw [code_cons]
      cases hall : Instruction.actAll P e.2 σ with
      | next τ =>
        rw [hall] at hstep hk
        cases hstep
        exact ⟨k, code place', hk, rfl, fun _ => Nat.lt_succ_self _⟩
      | jump t τ =>
        rw [hall] at hstep hk
        simp only [Turn.land, codeAt?] at hstep hk
        cases henter : o.enter? t with
        | none => rw [henter] at hstep; cases hstep
        | some p =>
          rw [henter] at hstep hk
          cases hstep
          refine ⟨k, code place', hk, rfl, fun h0 => ?_⟩
          -- A block that jumps has an instruction.
          rw [hzero h0] at hall
          cases hall
      | halted how τ => rw [hall] at hstep; cases hstep
  halted := by
    rintro place _ σ how τ rfl hstep -
    cases place with
    | nil =>
      rw [process_nil] at hstep
      cases hstep
      exact ⟨1, rfl⟩
    | cons e rest =>
      obtain ⟨k, hk, -⟩ := run_segment P o.codeAt? e.2 (code rest) σ
      rw [process_cons] at hstep
      refine ⟨k, ?_⟩
      rw [code_cons, hk]
      cases hall : Instruction.actAll P e.2 σ with
      | next ρ => rw [hall] at hstep; cases hstep
      | jump t ρ =>
        rw [hall] at hstep
        simp only [Turn.land, codeAt?] at hstep ⊢
        cases henter : o.enter? t with
        | none => rw [henter] at hstep; cases hstep; rfl
        | some p => rw [henter] at hstep; cases hstep
      | halted how' ρ => rw [hall] at hstep; cases hstep; rfl

/-- An outline and its code show the same, from any place on. -/
theorem refines_flow (P : Platform) (o place : Outline) (σ : Moment) :
    Process.Refines (o.process P) place (flow P o.codeAt?) (code place) σ
      ∧ Process.Refines (flow P o.codeAt?) (code place) (o.process P) place σ :=
  (simulation_flow P o).refines_both (flow_records P _) rfl

/-- Two outlines of one code show the same, if every branch leads to the same code. -/
theorem refines_of_code (P : Platform) {o o' place place' : Outline} (hcode : o'.code = o.code)
    (hplace : place <:+ o) (hsame : code place' = code place)
    (henter : ∀ ins ∈ o.code, ∀ t ∈ ins.copy.aims, o'.codeAt? t = o.codeAt? t) (σ : Moment) :
    Process.Refines (o.process P) place (o'.process P) place' σ := by
  have hsub : code place ⊆ o.code := by
    obtain ⟨before, rfl⟩ := hplace
    rw [code_append]
    exact List.subset_append_right _ _
  have h : Redirects P o.code o.codeAt? o'.codeAt? id := by
    refine ⟨fun t p => codeAt?_subset, fun ins hins σ => ?_⟩
    rw [id]
    cases hact : ins.act P σ with
    | next τ => exact Or.inr ⟨rfl, by simp⟩
    | halted how τ => exact Or.inr ⟨rfl, by simp⟩
    | jump t τ =>
      refine Or.inl ⟨t, τ, t, rfl, rfl, ?_⟩
      rw [henter ins hins t (Instruction.mem_aims_of_act hact).2, List.map_id_fun, Option.map_id]
      rfl
  have hflow := (h.refines hsub σ).1
  rw [List.map_id, ← hsame] at hflow
  exact ((refines_flow P o place σ).1.trans (hsame ▸ hflow)).trans (refines_flow P o' place' σ).2

/-- The stream of a method shows what an outline shows, if the method is the code of the
    outline with each branch pointed at what it led to. -/
theorem refines_stream (P : Platform) {o place : Outline} {f : Instruction → Instruction}
    (h : Redirects P o.code o.codeAt? (Method.enter? (o.code.map f)) f) (hplace : place <:+ o)
    (σ : Moment) :
    Process.Refines (o.process P) place
        (Method.stream P (o.code.map f)) ((code place).map f) σ
      ∧ Process.Refines (Method.stream P (o.code.map f)) ((code place).map f)
        (o.process P) place σ := by
  have hsub : code place ⊆ o.code := by
    obtain ⟨before, rfl⟩ := hplace
    rw [code_append]
    exact List.subset_append_right _ _
  obtain ⟨hto, hback⟩ := h.refines hsub σ
  obtain ⟨hflow, hflow'⟩ := refines_flow P o place σ
  exact ⟨hflow.trans hto, hback.trans hflow'⟩

/-! ## What holds in front of the blocks -/

/-- A property of the states in front of the blocks that holds in front of the next block
    when it holds in front of a block. -/
structure Keeps (P : Platform) (o : Outline) (inv : Int → Moment → Prop) : Prop where
  next : ∀ before e e' rest, o = before ++ e :: e' :: rest → ∀ σ τ, inv e.1 σ →
    Instruction.actAll P e.2 σ = .next τ → inv e'.1 τ
  jump : ∀ e ∈ o, ∀ σ t τ l, inv e.1 σ → Instruction.actAll P e.2 σ = .jump t τ →
    t.wholeNumber? = some l → l ∈ o.labels → inv l τ

/-- The property holds in front of the first block of a place. -/
def Holds (inv : Int → Moment → Prop) (place : Outline) (σ : Moment) : Prop :=
  ∀ e rest, place = e :: rest → inv e.1 σ

/-- Where a process goes on after a block, the property holds. -/
theorem Keeps.holds {P : Platform} {o : Outline} {inv : Int → Moment → Prop}
    (h : Keeps P o inv) {e : Int × List Instruction} {rest place : Outline} {σ τ : Moment}
    (hplace : e :: rest <:+ o) (hinv : inv e.1 σ)
    (hstep : (Instruction.actAll P e.2 σ).land o.enter? rest = .going place τ) :
    place <:+ o ∧ Holds inv place τ := by
  obtain ⟨before, hbefore⟩ := hplace
  have he : e ∈ o := hbefore ▸ List.mem_append_right _ List.mem_cons_self
  cases hall : Instruction.actAll P e.2 σ with
  | halted how ρ => rw [hall] at hstep; cases hstep
  | next ρ =>
    rw [hall] at hstep
    cases hstep
    refine ⟨⟨before ++ [e], by rw [← hbefore]; simp⟩, ?_⟩
    rintro e' rest' rfl
    exact h.next before e e' rest' hbefore.symm σ τ hinv hall
  | jump t ρ =>
    rw [hall] at hstep
    simp only [Turn.land] at hstep
    cases henter : o.enter? t with
    | none => rw [henter] at hstep; cases hstep
    | some p =>
      rw [henter] at hstep
      cases hstep
      refine ⟨enter?_suffix henter, ?_⟩
      rintro e' rest' rfl
      obtain ⟨l, hl, hfrom⟩ := Option.bind_eq_some_iff.mp henter
      obtain ⟨hsuffix, c, rest'', hcons⟩ := from?_eq_some hfrom
      cases hcons
      refine h.jump e he σ t τ l hinv hall hl ?_
      exact List.mem_map_of_mem (hsuffix.mem List.mem_cons_self)

end Outline

/-! ## Blocks rewritten in place -/

/-- A turn shows what another one shows: it is the same, or the other one found a value
    missing on the stack and this one shows the events up to there. -/
inductive Turn.Shows : Turn → Turn → Prop where
  | same (turn : Turn) : Shows turn turn
  | excused {σ : Moment} {turn : Turn} (h : σ.seen <:+ turn.moment.seen) :
      Shows (.halted .underflow σ) turn

namespace Outline

/-- Each block of an outline can have its code replaced where an invariant of the states in
    front of the blocks holds. -/
structure Rewrites (P : Platform) (o : Outline) (F : Int × List Instruction → List Instruction)
    (inv : Int → Moment → Prop) : Prop extends Keeps P o inv where
  shows : ∀ e ∈ o, ∀ σ, inv e.1 σ →
    Turn.Shows (Instruction.actAll P e.2 σ) (Instruction.actAll P (F e) σ)

/-- The outline with the code of its blocks replaced. -/
def replace (o : Outline) (F : Int × List Instruction → List Instruction) : Outline :=
  o.map fun e => (e.1, F e)

@[simp] theorem labels_replace (o : Outline) (F : Int × List Instruction → List Instruction) :
    (o.replace F).labels = o.labels := by
  simp [labels, replace, Function.comp_def]

/-- A block with another label is passed over. -/
theorem from?_cons_of_ne {e : Int × List Instruction} {label : Int} (o : Outline)
    (h : e.1 ≠ label) : from? (e :: o) label = o.from? label := by
  simp [from?, h]

/-- Replacing code does not move the blocks. -/
theorem from?_replace (o : Outline) (F : Int × List Instruction → List Instruction)
    (label : Int) : (o.replace F).from? label = (o.from? label).map fun p => replace p F := by
  induction o with
  | nil => rfl
  | cons e o ih =>
    by_cases h : e.1 = label
    · simp [from?, replace, h]
    · rw [from?_cons_of_ne o h, ← ih]
      exact from?_cons_of_ne (e := (e.1, F e)) _ h

theorem enter?_replace (o : Outline) (F : Int × List Instruction → List Instruction)
    (t : Value) : (o.replace F).enter? t = (o.enter? t).map fun p => replace p F := by
  unfold enter?
  cases t.wholeNumber? with
  | none => rfl
  | some l => exact from?_replace o F l

namespace Rewrites

variable {P : Platform} {o : Outline} {F : Int × List Instruction → List Instruction}
  {inv : Int → Moment → Prop}

theorem simulation (h : Rewrites P o F inv) :
    Process.Simulation (· = .underflow) (o.process P) ((o.replace F).process P)
      (fun place place' σ => place <:+ o ∧ Holds inv place σ ∧ place' = place.replace F)
      fun _ => 0 := by
  refine .lockstep ?_
  rintro place _ σ ⟨hplace, hinv, rfl⟩
  cases place with
  | nil => exact Or.inl (.halted .ranOff σ)
  | cons e rest =>
    have he := hinv e rest rfl
    have hshows := h.shows e (hplace.mem List.mem_cons_self) σ he
    have hholds {p : Outline} {τ : Moment}
        (hgoes : (Instruction.actAll P e.2 σ).land o.enter? rest = .going p τ) :
        p <:+ o ∧ Holds inv p τ := h.holds hplace he hgoes
    rw [process_cons]
    show Process.Simulation.Agree _ _ ((Instruction.actAll P (F e) σ).land _ (replace rest F)) ∨ _
    generalize hall : Instruction.actAll P e.2 σ = turn at hshows hholds
    generalize hall' : Instruction.actAll P (F e) σ = turn' at hshows
    cases hshows with
    | same =>
      refine Or.inl (Turn.land_agree (fun τ hnext => ?_) fun t τ hjump => ?_)
      · obtain ⟨hin, hat⟩ := hholds (p := rest) (τ := τ) (by rw [hnext]; rfl)
        exact ⟨hin, hat, rfl⟩
      · rw [enter?_replace]
        cases henter : o.enter? t with
        | none => exact .none
        | some p =>
          obtain ⟨hin, hat⟩ := hholds (p := p) (τ := τ) (by rw [hjump, Turn.land, henter])
          exact .some ⟨hin, hat, rfl⟩
    | @excused τ _ hseen =>
      refine Or.inr ⟨.underflow, τ, rfl, rfl, ?_⟩
      show τ.seen <:+ ((Instruction.actAll P (F e) σ).land _ (replace rest F)).moment.seen
      rw [Turn.land_moment, hall']
      exact hseen

/-- The outline with its code replaced shows what the outline shows. -/
theorem refines (h : Rewrites P o F inv) {place : Outline} (hplace : place <:+ o) {σ : Moment}
    (hinv : Holds inv place σ) :
    Process.Refines (o.process P) place ((o.replace F).process P) (place.replace F) σ :=
  h.simulation.refines (process_records P _) ⟨hplace, hinv, rfl⟩

end Rewrites

/-! ## Blocks left out -/

/-- The live blocks of an outline. -/
def only (o : Outline) (live : Int → Bool) : Outline := o.filter fun e => live e.1

/-- Control only ever goes from live blocks to live blocks. -/
abbrev Confined (P : Platform) (o : Outline) (live : Int → Bool) : Prop :=
  Keeps P o fun l _ => live l = true

/-- Leaving blocks out does not move a block that stays. -/
theorem from?_only (o : Outline) {live : Int → Bool} {label : Int} (hl : live label = true) :
    (o.only live).from? label = (o.from? label).map fun p => only p live := by
  induction o with
  | nil => rfl
  | cons e o ih =>
    by_cases h : e.1 = label
    · simp [from?, only, h, hl]
    · rw [from?_cons_of_ne o h, ← ih]
      cases hlive : live e.1 with
      | true =>
        have : only (e :: o) live = e :: only o live := by simp [only, hlive]
        rw [this, from?_cons_of_ne _ h]
      | false =>
        have : only (e :: o) live = only o live := by simp [only, hlive]
        rw [this]

/-- A label that no block has is nowhere. -/
theorem from?_of_not_mem {o : Outline} {label : Int} (h : label ∉ o.labels) :
    o.from? label = none := by
  induction o with
  | nil => rfl
  | cons e o ih =>
    have hne : e.1 ≠ label := by rintro rfl; exact h List.mem_cons_self
    rw [from?_cons_of_ne o hne]
    exact ih fun ho => h (List.mem_cons_of_mem _ ho)

theorem labels_only_subset (o : Outline) (live : Int → Bool) : (o.only live).labels ⊆ o.labels :=
  List.map_subset _ List.filter_sublist.subset

namespace Confined

variable {P : Platform} {o : Outline} {live : Int → Bool}

/-- A branch of a live block that enters the outline enters what is left of it. -/
theorem enter?_only (h : Confined P o live) {e : Int × List Instruction} (he : e ∈ o)
    (hlive : live e.1 = true) {σ τ : Moment} {t : Value}
    (hact : Instruction.actAll P e.2 σ = .jump t τ) :
    (o.only live).enter? t = (o.enter? t).map fun p => only p live := by
  unfold enter?
  cases hl : t.wholeNumber? with
  | none => rfl
  | some l =>
    simp only [Option.bind_some]
    by_cases hmem : l ∈ o.labels
    · exact from?_only o (h.jump e he σ t τ l hlive hact hl hmem)
    · rw [from?_of_not_mem hmem, from?_of_not_mem fun hin => hmem (labels_only_subset o live hin)]
      rfl

theorem simulation (h : Confined P o live) :
    Process.Simulation (fun _ => False) (o.process P) ((o.only live).process P)
      (fun place place' σ => place <:+ o ∧ Holds (fun l _ => live l = true) place σ
        ∧ place' = place.only live) fun _ => 0 := by
  refine .lockstep ?_
  rintro place _ σ ⟨hplace, hlive, rfl⟩
  left
  cases place with
  | nil => exact .halted .ranOff σ
  | cons e rest =>
    have hle := hlive e rest rfl
    have honly : only (e :: rest) live = e :: only rest live := by simp [only, hle]
    have hholds {p : Outline} {τ : Moment}
        (hgoes : (Instruction.actAll P e.2 σ).land o.enter? rest = .going p τ) :
        p <:+ o ∧ Holds (fun l _ => live l = true) p τ := Keeps.holds h hplace hle hgoes
    rw [honly, process_cons, process_cons]
    refine Turn.land_agree (fun τ hnext => ?_) fun t τ hjump => ?_
    · obtain ⟨hin, hat⟩ := hholds (p := rest) (τ := τ) (by rw [hnext]; rfl)
      exact ⟨hin, hat, rfl⟩
    · rw [h.enter?_only (hplace.mem List.mem_cons_self) hle hjump]
      cases henter : o.enter? t with
      | none => exact .none
      | some p =>
        obtain ⟨hin, hat⟩ := hholds (p := p) (τ := τ) (by rw [hjump, Turn.land, henter])
        exact .some ⟨hin, hat, rfl⟩

/-- Without the blocks that are not live the outline shows the same. -/
theorem refines (h : Confined P o live) {place : Outline} (hplace : place <:+ o) {σ : Moment}
    (hlive : Holds (fun l _ => live l = true) place σ) :
    Process.Refines (o.process P) place ((o.only live).process P) (place.only live) σ :=
  (h.simulation.refines_both (process_records P _) ⟨hplace, hlive, rfl⟩).1

end Confined

end Outline

end Untangle
