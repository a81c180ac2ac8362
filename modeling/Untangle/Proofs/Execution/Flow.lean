/-
  Untangle.Proofs.Execution.Flow

  Running code instruction by instruction. Where a branch leads is an argument: the stream
  of a method is entered at the instruction that a target names.

  `Redirects.refines` compares code with the same code after its branches have been pointed
  elsewhere: it shows the same if each new target leads to what the old one led to.
-/
import Untangle.Graph.Relink
import Untangle.Proofs.Execution.Process

namespace Untangle

namespace Turn

/-- Where a process stands after a turn, given where branches enter it and what comes next. -/
def land {α : Type} (enter? : Value → Option α) (rest : α) : Turn → Standing α
  | .next τ => .going rest τ
  | .jump t τ =>
    match enter? t with
    | some place => .going place τ
    | none => .halted .stuck τ
  | .halted how τ => .halted how τ

/-- Landing keeps the state. -/
@[simp] theorem land_moment {α : Type} (enter? : Value → Option α) (rest : α) (turn : Turn) :
    (turn.land enter? rest).moment = turn.moment := by
  cases turn with
  | next τ => rfl
  | halted how τ => rfl
  | jump t τ =>
    simp only [land]
    split <;> rfl

/-- Jumps to related places agree. -/
theorem jump_agree {α β : Type} {related : α → β → Moment → Prop} {enter? : Value → Option α}
    {enter'? : Value → Option β} {t t' : Value} {τ : Moment} (rest : α) (rest' : β)
    (h : Option.Rel (fun p q => related p q τ) (enter? t) (enter'? t')) :
    Process.Simulation.Agree related ((jump t τ).land enter? rest)
      ((jump t' τ).land enter'? rest') := by
  dsimp only [land]
  generalize enter? t = place at h ⊢
  generalize enter'? t' = place' at h ⊢
  cases h with
  | none => exact .halted .stuck τ
  | some hrel => exact .going hrel

/-- A turn that goes on to related places agrees with itself. -/
theorem land_agree {α β : Type} {related : α → β → Moment → Prop} {enter? : Value → Option α}
    {enter'? : Value → Option β} {rest : α} {rest' : β} {turn : Turn}
    (hnext : ∀ τ, turn = .next τ → related rest rest' τ)
    (hjump : ∀ t τ, turn = .jump t τ →
      Option.Rel (fun p q => related p q τ) (enter? t) (enter'? t)) :
    Process.Simulation.Agree related (turn.land enter? rest) (turn.land enter'? rest') := by
  cases turn with
  | next τ => exact .going (hnext τ rfl)
  | jump t τ => exact jump_agree rest rest' (hjump t τ rfl)
  | halted how τ => exact .halted how τ

/-- The turn with its target sent through a renaming. -/
def redirect (rename : Value → Value) : Turn → Turn
  | .jump t τ => .jump (rename t) τ
  | turn => turn

/-- A turn that is no jump is not redirected. -/
theorem redirect_of_forall_ne {turn : Turn} (rename : Value → Value)
    (h : ∀ t τ, turn ≠ .jump t τ) : turn.redirect rename = turn := by
  cases turn with
  | next τ => rfl
  | halted how τ => rfl
  | jump t τ => exact absurd rfl (h t τ)

end Turn

/-- The process of straight-line code, instruction by instruction. -/
def flow (P : Platform) (enter? : Value → Option (List Instruction)) :
    Process (List Instruction)
  | [], σ => .halted .ranOff σ
  | ins :: rest, σ => (ins.act P σ).land enter? rest

theorem flow_cons (P : Platform) (enter? : Value → Option (List Instruction))
    (ins : Instruction) (rest : List Instruction) (σ : Moment) :
    flow P enter? (ins :: rest) σ = (ins.act P σ).land enter? rest := rfl

theorem flow_records (P : Platform) (enter? : Value → Option (List Instruction)) :
    (flow P enter?).Records := by
  intro place σ
  cases place with
  | nil => exact List.suffix_refl _
  | cons ins rest =>
    rw [flow_cons, Turn.land_moment]
    exact ins.seen_suffix_act P σ

/-! ## Branches pointed elsewhere -/

/-- Code whose instructions are sent through `f` does the same as the code, with each branch
    pointed at what it led to before. -/
structure Redirects (P : Platform) (code : List Instruction)
    (enter? enter'? : Value → Option (List Instruction)) (f : Instruction → Instruction) :
    Prop where
  inside : ∀ t place, enter? t = some place → place ⊆ code
  act : ∀ ins ∈ code, ∀ σ,
    (∃ t τ t', ins.act P σ = .jump t τ ∧ (f ins).act P σ = .jump t' τ
      ∧ enter'? t' = (enter? t).map (List.map f))
    ∨ ((f ins).act P σ = ins.act P σ ∧ ∀ t τ, ins.act P σ ≠ .jump t τ)

namespace Redirects

variable {P : Platform} {code : List Instruction}
  {enter? enter'? : Value → Option (List Instruction)} {f : Instruction → Instruction}

theorem simulation (h : Redirects P code enter? enter'? f) :
    Process.Simulation (fun _ => False) (flow P enter?) (flow P enter'?)
      (fun place place' _ => place ⊆ code ∧ place' = place.map f) fun _ => 0 := by
  refine .lockstep ?_
  rintro place _ σ ⟨hplace, rfl⟩
  left
  cases place with
  | nil => exact .halted .ranOff σ
  | cons ins rest =>
    obtain ⟨hins, hrest⟩ := List.cons_subset.mp hplace
    rw [List.map_cons, flow_cons, flow_cons]
    rcases h.act ins hins σ with ⟨t, τ, t', hact, hact', henter⟩ | ⟨hact, hnojump⟩
    · rw [hact, hact']
      refine Turn.jump_agree _ _ ?_
      rw [henter]
      cases hp : enter? t with
      | none => exact .none
      | some p => exact .some ⟨h.inside t p hp, rfl⟩
    · rw [hact]
      exact Turn.land_agree (fun τ _ => ⟨hrest, rfl⟩) fun t τ hjump => absurd hjump (hnojump t τ)

/-- Both codes show the same, from any place on. -/
theorem refines (h : Redirects P code enter? enter'? f) {place : List Instruction}
    (hplace : place ⊆ code) (σ : Moment) :
    Process.Refines (flow P enter?) place (flow P enter'?) (place.map f) σ
      ∧ Process.Refines (flow P enter'?) (place.map f) (flow P enter?) place σ :=
  h.simulation.refines_both (flow_records P _) ⟨hplace, rfl⟩

end Redirects

/-! ## The stream of a method -/

namespace Method

/-- The stream from the instruction on that a value names. -/
def enter? (code : List Instruction) (t : Value) : Option (List Instruction) :=
  (placeOf? code t).map fun p => code.drop p

/-- The process of a stream. -/
def stream (P : Platform) (code : List Instruction) : Process (List Instruction) :=
  flow P (enter? code)

/-- A stream is entered at code of its own. -/
theorem enter?_subset {code place : List Instruction} {t : Value}
    (h : enter? code t = some place) : place ⊆ code := by
  obtain ⟨p, -, rfl⟩ := Option.map_eq_some_iff.mp h
  exact List.drop_subset _ _

/-- Instructions that keep their uids keep their places. -/
theorem place?_map (code : List Instruction) {f : Instruction → Instruction}
    (hf : ∀ ins, (f ins).uid = ins.uid) (uid : Int) :
    place? (code.map f) uid = place? code uid := by
  unfold place?
  rw [List.findIdx?_map]
  simp only [Function.comp_def, hf]

theorem placeOf?_map (code : List Instruction) {f : Instruction → Instruction}
    (hf : ∀ ins, (f ins).uid = ins.uid) (v : Value) :
    placeOf? (code.map f) v = placeOf? code v := by
  unfold placeOf?
  rw [show place? (code.map f) = place? code from funext (place?_map code hf)]

/-- A stream whose instructions keep their uids is entered at the same places. -/
theorem enter?_map (code : List Instruction) (f : Instruction → Instruction)
    (hf : ∀ ins, (f ins).uid = ins.uid) (t : Value) :
    enter? (code.map f) t = (enter? code t).map (List.map f) := by
  unfold enter?
  rw [placeOf?_map code hf, Option.map_map]
  simp only [Function.comp_def, List.map_drop]

/-- The copy of a method shows what the method shows. -/
theorem stream_copy (P : Platform) (code : List Instruction) {place : List Instruction}
    (hplace : place ⊆ code) (σ : Moment) :
    Process.Refines (stream P code) place
      (stream P (code.map Instruction.copy)) (place.map Instruction.copy) σ := by
  have h : Redirects P code (enter? code) (enter? (code.map Instruction.copy))
      Instruction.copy := by
    refine ⟨fun t place => enter?_subset, fun ins _ σ => ?_⟩
    rw [Instruction.act_copy]
    cases ins.act P σ with
    | next τ => exact Or.inr ⟨rfl, by simp⟩
    | halted how τ => exact Or.inr ⟨rfl, by simp⟩
    | jump t τ =>
      exact Or.inl ⟨t, τ, t, rfl, rfl, enter?_map code _ Instruction.copy_uid t⟩
  exact (h.refines hplace σ).1

end Method

/-! ## Renaming the targets of branches -/

/-- A value that stands for a number is neither null nor a collection. -/
theorem Value.fixed_of_wholeNumber? {v : Value} (h : v.wholeNumber?.isSome) :
    v ≠ .null ∧ ∀ items, v ≠ .list items ∧ v ≠ .tuple items := by
  cases v with
  | null => cases h
  | list items => cases h
  | tuple items => cases h
  | _ => exact ⟨by simp, fun _ => ⟨by simp, by simp⟩⟩

theorem Operand.eq_of_isNone {o : Operand} (h : o.isNone = true) : o = .value .null := by
  unfold isNone at h
  split at h
  · rfl
  · cases h

namespace Instruction

theorem retarget_uid (rename : Value → Value) (ins : Instruction) :
    (ins.retarget rename).uid = ins.uid := by
  unfold retarget
  split
  · rfl
  · split
    · split <;> rfl
    · split <;> rfl

theorem retarget_opcode (rename : Value → Value) (ins : Instruction) :
    (ins.retarget rename).opcode = ins.opcode := by
  unfold retarget
  split
  · rfl
  · split
    · split <;> rfl
    · split <;> rfl

theorem retarget_mnemonic (rename : Value → Value) (ins : Instruction) :
    (ins.retarget rename).mnemonic = ins.mnemonic := by
  unfold retarget
  split
  · rfl
  · split
    · split <;> rfl
    · split <;> rfl

/-- Renaming targets does not change whether control falls through. -/
theorem retarget_fallsThrough (rename : Value → Value) (ins : Instruction)
    (terminators : List Value) :
    (ins.retarget rename).fallsThrough terminators = ins.fallsThrough terminators := by
  unfold fallsThrough
  rw [retarget_opcode, retarget_mnemonic]

/-- Renaming the targets of a branch leaves it a branch. -/
theorem retarget_endsRun (rename : Value → Value) (ins : Instruction) (terminators : List Value) :
    (ins.retarget rename).endsRun terminators = ins.endsRun terminators := by
  unfold endsRun isBranch
  rw [retarget_opcode, retarget_fallsThrough]

theorem retarget_of_not_branch (rename : Value → Value) {ins : Instruction}
    (h : ins.isBranch = false) : ins.retarget rename = ins := by
  simp [retarget, h]

theorem aims_of_not_branch {ins : Instruction} (h : ins.isBranch = false) : ins.aims = [] := by
  simp [aims, targets, h, Except.toOption]

/-- An instruction with targets is a branch. -/
theorem isBranch_of_mem_aims {ins : Instruction} {t : Value} (h : t ∈ ins.aims) :
    ins.isBranch = true := by
  cases hbranch : ins.isBranch with
  | true => rfl
  | false => rw [aims_of_not_branch hbranch] at h; cases h

/-- The target of a branch that is no dispatch is its operand. -/
theorem aims_of_not_switch {ins : Instruction} (hb : ins.isBranch = true)
    (hs : ins.opcode ≠ some .switch) :
    ins.aims = if ins.operand.isNone then [] else [ins.operand.toValue] := by
  unfold aims targets
  simp only [hb, hs, Bool.not_true, Bool.false_eq_true, if_false, beq_iff_eq]
  split <;> rfl

/-- The operand of a branch that is no dispatch is its target, if it has one. -/
theorem mem_aims_of_operand {ins : Instruction} (hb : ins.isBranch = true)
    (hs : ins.opcode ≠ some .switch) (hsome : ins.operand.isNone = false) :
    ins.operand.toValue ∈ ins.aims := by
  rw [aims_of_not_switch hb hs, hsome, if_neg (by decide)]
  exact List.mem_singleton_self _

/-- Of a branch other than a dispatch the operand is the target. -/
theorem retarget_single (rename : Value → Value) {ins : Instruction} (hb : ins.isBranch = true)
    (hs : ins.opcode ≠ some .switch) : (ins.retarget rename).operand
      = if ins.operand.isNone then ins.operand else .value (rename ins.operand.toValue) := by
  have hs' : (ins.opcode == some .switch) = false := by simpa using hs
  unfold retarget
  rw [hb, hs']
  cases ins.operand.isNone <;> rfl

/-- Where targets are sent to the same values the instruction becomes the same. -/
theorem retarget_congr {rename rename' : Value → Value} {ins : Instruction}
    (h : ∀ t ∈ ins.aims, rename t = rename' t) : ins.retarget rename = ins.retarget rename' := by
  unfold retarget
  split
  · rfl
  rename_i hb
  rw [Bool.not_eq_true', Bool.not_eq_false] at hb
  split
  · cases hts : ins.targets with
    | error e => rfl
    | ok ts =>
      rw [aims, hts] at h
      have hmap : ts.map rename = ts.map rename' := List.map_congr_left h
      dsimp only
      rw [hmap]
  · rename_i hs
    split
    · rfl
    · rename_i hsome
      rw [h _ (mem_aims_of_operand hb (fun hop => hs (beq_iff_eq.mpr hop))
        (Bool.eq_false_iff.mpr hsome))]

/-- The targets of a dispatch are the items of its operand. -/
theorem aims_of_switch {ins : Instruction} (hs : ins.opcode = some .switch) :
    ins.aims = if ins.operand.toValue.truthy
      then (ins.operand.toValue.items.toOption).getD [] else [] := by
  have hb : ins.isBranch = true := isBranch_of_opcode hs
  unfold aims targets
  simp only [hb, hs, Bool.not_true, Bool.false_eq_true, if_false, beq_self_eq_true, if_true]
  split <;> rfl

/-- A copy of a dispatch has the same targets. -/
theorem aims_copy_of_switch {ins : Instruction} (hs : ins.opcode = some .switch) :
    ins.copy.aims = ins.aims := by
  rw [aims_of_switch hs, aims_of_switch (by rw [copy_opcode, hs]), copy_operand_toValue]
  cases ins.operand.toValue <;> rfl

/-- Of a branch to numbers that is no dispatch the copy is the branch itself. -/
theorem copy_eq_self {ins : Instruction} (hb : ins.isBranch = true)
    (hs : ins.opcode ≠ some .switch)
    (h : (∀ t ∈ ins.aims, t.wholeNumber?.isSome) ∨ ∀ t ∈ ins.copy.aims, t.wholeNumber?.isSome) :
    ins.copy = ins := by
  -- Only an operand that is a list would change.
  unfold copy at h ⊢
  split
  · rename_i items hop
    rw [hop] at h
    rcases h with h | h
    · have hmem : Value.list items ∈ ins.aims := by
        rw [aims_of_not_switch hb hs, hop]
        exact List.mem_singleton_self _
      exact absurd rfl ((Value.fixed_of_wholeNumber? (h _ hmem)).2 items).1
    · have hmem : Value.tuple items
          ∈ ({ ins with operand := .value (.tuple items) } : Instruction).aims :=
        (aims_of_not_switch (show Instruction.isBranch
          { ins with operand := .value (.tuple items) } = true from hb) hs).symm ▸
          List.mem_singleton_self _
      cases h _ hmem
  · rfl

/-- A copy of a branch to numbers has the same targets. -/
theorem aims_copy {ins : Instruction}
    (h : (∀ t ∈ ins.aims, t.wholeNumber?.isSome) ∨ ∀ t ∈ ins.copy.aims, t.wholeNumber?.isSome) :
    ins.copy.aims = ins.aims := by
  by_cases hs : ins.opcode = some .switch
  · exact aims_copy_of_switch hs
  cases hb : ins.isBranch with
  | false =>
    rw [aims_of_not_branch hb, aims_of_not_branch ((copy_isBranch ins).trans hb)]
  | true => rw [copy_eq_self hb hs h]

/-- Sending the targets of a branch through a renaming sends them through it. -/
theorem aims_retarget {ins : Instruction} {rename : Value → Value}
    (h : ∀ t ∈ ins.aims, (rename t).wholeNumber?.isSome) :
    (ins.retarget rename).aims = ins.aims.map rename := by
  cases hb : ins.isBranch with
  | false => rw [retarget_of_not_branch rename hb, aims_of_not_branch hb, List.map_nil]
  | true =>
    by_cases hs : ins.opcode = some .switch
    · unfold retarget
      simp only [hb, hs, Bool.not_true, Bool.false_eq_true, if_false, beq_self_eq_true, if_true]
      cases hts : ins.targets with
      | error e => simp [aims, hts, Except.toOption]
      | ok ts =>
        dsimp only
        rw [aims_of_switch rfl]
        have haims : ins.aims = ts := by simp [aims, hts, Except.toOption]
        rw [haims]
        cases ts <;> rfl
    · have hbs : (ins.opcode == some .switch) = false := by simpa using hs
      cases hn : ins.operand.isNone with
      | true =>
        have hsame : ins.retarget rename = ins := by simp [retarget, hb, hbs, hn]
        rw [hsame, aims_of_not_switch hb hs, hn]
        rfl
      | false =>
        have hmem : ins.operand.toValue ∈ ins.aims := by
          rw [aims_of_not_switch hb hs, hn]
          exact List.mem_singleton_self _
        have hnull := (Value.fixed_of_wholeNumber? (h _ hmem)).1
        have hsame : ins.retarget rename
            = { ins with operand := .value (rename ins.operand.toValue) } := by
          simp [retarget, hb, hbs, hn]
        rw [hsame, aims_of_not_switch hb hs, hn, aims_of_not_switch (by exact hb) (by exact hs)]
        have hnone : Operand.isNone (.value (rename ins.operand.toValue)) = false := by
          unfold Operand.isNone
          split
          · rename_i heq
            exact absurd (Operand.value.inj heq) hnull
          · rfl
        show (if Operand.isNone (.value (rename ins.operand.toValue)) then []
          else [rename ins.operand.toValue]) = _
        rw [hnone]
        rfl

/-- Two branches of one kind that differ in nothing but a renaming of their targets. -/
theorem perform_redirect (P : Platform) {ins ins' : Instruction} {rename : Value → Value}
    (hop : ins'.opcode = ins.opcode) (hmn : ins'.mnemonic = ins.mnemonic)
    (hb : ins.isBranch = true) (haims : ins'.aims = ins.aims.map rename) (σ : Moment) :
    ins'.perform P σ = (ins.perform P σ).redirect rename := by
  unfold perform
  rw [hop]
  unfold isBranch at hb
  cases h : ins.opcode with
  | none => rw [h] at hb; cases hb
  | some op =>
    rw [h] at hb
    cases op with
    | branch =>
      dsimp only
      rw [haims, List.head?_map]
      cases ins.aims.head? <;> rfl
    | leave =>
      dsimp only
      rw [haims, List.head?_map]
      cases ins.aims.head? <;> rfl
    | condBranch =>
      dsimp only
      have harity : ins'.conditionArity = ins.conditionArity := by
        unfold conditionArity
        rw [hmn]
      rw [harity, haims, hmn, List.head?_map]
      cases σ.popMany? ins.conditionArity with
      | none => rfl
      | some r =>
        dsimp only
        split
        · cases ins.aims.head? <;> rfl
        · rfl
    | switch =>
      dsimp only
      cases σ.pop? with
      | none => rfl
      | some r =>
        obtain ⟨v, τ⟩ := r
        dsimp only
        have hchosen : ins'.chosen? v = (ins.chosen? v).map rename := by
          unfold chosen?
          cases v.integer? with
          | none => rfl
          | some n =>
            simp only [Option.bind_some, haims, List.getElem?_map]
            split <;> rfl
        rw [hchosen]
        cases ins.chosen? v <;> rfl
    | _ => cases hb

/-- Pointing a branch elsewhere changes nothing but where it goes. -/
theorem act_retarget (P : Platform) {ins : Instruction} {rename : Value → Value}
    (h : ∀ t ∈ ins.aims, t.wholeNumber?.isSome ∧ (rename t).wholeNumber?.isSome)
    (σ : Moment) : (ins.retarget rename).act P σ = (ins.act P σ).redirect rename := by
  cases hb : ins.isBranch with
  | false =>
    rw [retarget_of_not_branch rename hb, Turn.redirect_of_forall_ne]
    intro t τ hjump
    rw [(mem_aims_of_act hjump).1] at hb
    cases hb
  | true =>
    have haims := aims_retarget fun t ht => (h t ht).2
    refine perform_redirect P ?_ ?_ ?_ ?_ σ
    · rw [copy_opcode, copy_opcode, retarget_opcode]
    · rw [copy_mnemonic, copy_mnemonic, retarget_mnemonic]
    · exact (copy_isBranch ins).trans hb
    · rw [aims_copy (Or.inl fun t ht => (h t ht).1), aims_copy (Or.inl ?_), haims]
      rw [haims]
      intro t ht
      obtain ⟨t', ht', rfl⟩ := List.mem_map.mp ht
      exact (h t' ht').2

end Instruction

end Untangle
