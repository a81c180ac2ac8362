/-
  Untangle.Proofs.Execution.Moment

  Running instructions on a real stack. What a method does not say itself (results of
  operations that have none, sizes of types that are not in the table, which way a
  condition goes, and all that instructions of no other kind do) is decided by a world,
  which sees everything that has been observed so far. Instructions of no other kind are
  what can be observed of a run: each leaves an event that shows it together with the
  stack and the locals that it found.
-/
import Untangle.Abstract.Step

namespace Untangle

/-- The values of the locals, by the values that name them. -/
abbrev Locals := Value → Value

namespace Locals

/-- The locals after a value is stored. A local is found under every value that equals its
    name. -/
def write (locals : Locals) (name v : Value) : Locals :=
  fun other => if name.equal other then v else locals other

/-- A local that is read under a name equal to the one it was stored under has the value
    stored. -/
theorem write_of_equal (locals : Locals) {name other : Value} (v : Value)
    (h : name.equal other = true) : locals.write name v other = v := by
  simp [write, h]

end Locals

/-- What is seen of an instruction of no other kind: the instruction, and the stack and the
    locals in front of it. -/
structure Observation where
  ins : Instruction
  stack : List Value
  locals : Locals

/-- The state of a run: the stack with its top first, the locals, and the events so far with
    the latest first. -/
structure Moment where
  stack : List Value
  locals : Locals
  seen : List Observation := []

/-- What a run asks of the world. Every answer may depend on the events so far. -/
structure World where
  /-- What an operation that has no result by itself gives for its operands, the deepest
      first; nothing where the run ends there. -/
  result : List Observation → ArithOp → List Value → Option Value
  /-- The size of a type that is not in the table. -/
  size : List Observation → Operand → Value
  /-- Whether the conditional branch of a mnemonic is taken for its operands. -/
  decides : List Observation → Value → List Value → Bool
  /-- The stack and the locals after an instruction that declares no effect. -/
  acts : Observation → List Observation → List Value × Locals
  /-- The values pushed, the topmost first, and the locals after an instruction that declares
      its effect. -/
  gives : Observation → List Observation → (Nat → Value) × Locals
  deriving Inhabited

/-- What a run depends on besides the method. -/
structure Platform where
  machine : Machine
  world : World
  /-- The mnemonics after which a run stops. -/
  terminators : List Value

/-- How a run ends. -/
inductive Ending where
  /-- An instruction stopped it. -/
  | stopped
  /-- An operation had no result. -/
  | trapped
  /-- There were no more instructions. -/
  | ranOff
  /-- A value was missing on the stack. -/
  | underflow
  /-- The instruction had no meaning, or a branch led nowhere. -/
  | stuck
  deriving DecidableEq

/-- What comes after an instruction. -/
inductive Turn where
  /-- The instruction behind it. -/
  | next (σ : Moment)
  /-- The instruction that a value names. -/
  | jump (target : Value) (σ : Moment)
  | halted (how : Ending) (σ : Moment)

namespace Turn

/-- The state of the run at a turn. -/
def moment : Turn → Moment
  | .next σ | .jump _ σ | .halted _ σ => σ

/-- What comes after more code, if the next instruction comes at all. -/
def andThen (turn : Turn) (more : Moment → Turn) : Turn :=
  match turn with
  | .next σ => more σ
  | .jump t σ => .jump t σ
  | .halted how σ => .halted how σ

@[simp] theorem andThen_next (σ : Moment) (more : Moment → Turn) :
    (next σ).andThen more = more σ := rfl

theorem andThen_assoc (turn : Turn) (f g : Moment → Turn) :
    (turn.andThen f).andThen g = turn.andThen fun σ => (f σ).andThen g := by
  cases turn <;> rfl

/-- The next instruction comes after more code only if it came after the first. -/
theorem andThen_eq_next {turn : Turn} {more : Moment → Turn} {τ : Moment}
    (h : turn.andThen more = .next τ) : ∃ σ, turn = .next σ ∧ more σ = .next τ := by
  cases turn with
  | next σ => exact ⟨σ, rfl, h⟩
  | jump t σ => cases h
  | halted how σ => cases h

end Turn

namespace Moment

/-- The state with one more value on the stack. -/
def push (σ : Moment) (v : Value) : Moment := { σ with stack := v :: σ.stack }

/-- The value at the top, and the state without it. -/
def pop? (σ : Moment) : Option (Value × Moment) :=
  match σ.stack with
  | [] => none
  | v :: rest => some (v, { σ with stack := rest })

/-- The values at the top, the deepest first, and the state without them. -/
def popMany? (n : Nat) (σ : Moment) : Option (List Value × Moment) :=
  if n ≤ σ.stack.length then
    some ((σ.stack.take n).reverse, { σ with stack := σ.stack.drop n })
  else none

@[simp] theorem pop?_nil (locals : Locals) (seen : List Observation) :
    pop? ⟨[], locals, seen⟩ = none := rfl

@[simp] theorem pop?_cons (v : Value) (rest : List Value) (locals : Locals)
    (seen : List Observation) :
    pop? ⟨v :: rest, locals, seen⟩ = some (v, ⟨rest, locals, seen⟩) := rfl

@[simp] theorem push_stack (σ : Moment) (v : Value) : (σ.push v).stack = v :: σ.stack := rfl

/-- Taking a value off changes the stack and nothing else. -/
theorem pop?_eq_some {σ τ : Moment} {v : Value} (h : σ.pop? = some (v, τ)) :
    σ.stack = v :: τ.stack ∧ τ.locals = σ.locals ∧ τ.seen = σ.seen := by
  obtain ⟨stack, locals, seen⟩ := σ
  cases stack with
  | nil => simp at h
  | cons w rest =>
    simp only [pop?_cons, Option.some.injEq, Prod.mk.injEq] at h
    obtain ⟨rfl, rfl⟩ := h
    exact ⟨rfl, rfl, rfl⟩

/-- Taking values off changes the stack and nothing else. -/
theorem popMany?_eq_some {n : Nat} {σ τ : Moment} {vs : List Value}
    (h : σ.popMany? n = some (vs, τ)) :
    n ≤ σ.stack.length ∧ vs = (σ.stack.take n).reverse
      ∧ τ = { σ with stack := σ.stack.drop n } := by
  unfold popMany? at h
  split at h
  · rename_i hn
    simp only [Option.some.injEq, Prod.mk.injEq] at h
    exact ⟨hn, h.1.symm, h.2.symm⟩
  · exact absurd h (by simp)

end Moment

/-- A value that cannot change: a list becomes a tuple. -/
def Value.fixed : Value → Value
  | .list items => .tuple items
  | v => v

namespace Instruction

/-- The targets of a branch; none where they cannot be listed. -/
def aims (ins : Instruction) : List Value := ins.targets.toOption.getD []

/-- The target that a dispatch with a selector goes to, if it goes to one. -/
def chosen? (ins : Instruction) (selector : Value) : Option Value :=
  selector.integer?.bind fun n => if 0 ≤ n then ins.aims[n.toNat]? else none

/-- What is seen of an instruction. -/
def event (ins : Instruction) (σ : Moment) : Observation := ⟨ins, σ.stack, σ.locals⟩

/-- Runs an operation on the operands at the top of the stack. -/
def operate (P : Platform) (op : ArithOp) (σ : Moment) : Turn :=
  match σ.popMany? op.arity with
  | none => .halted .underflow σ
  | some (operands, τ) =>
    match op.evaluateAt operands P.machine.width P.machine.policy with
    | .ok (some n) => .next (τ.push (.int n))
    | _ =>
      match P.world.result σ.seen op operands with
      | some v => .next (τ.push v)
      | none => .halted .trapped τ

/-- Runs an instruction of no other kind, up to whether the run goes on. -/
def affect (P : Platform) (ins : Instruction) (σ : Moment) : Option Moment :=
  let event := ins.event σ
  match ins.declaredEffect with
  | some (pops, pushes) =>
    (σ.popMany? pops.toNat).map fun (_, τ) =>
      let (given, locals) := P.world.gives event σ.seen
      { stack := (List.range pushes.toNat).map given ++ τ.stack, locals
        seen := event :: σ.seen }
  | none =>
    let (stack, locals) := P.world.acts event σ.seen
    some { stack, locals, seen := event :: σ.seen }

/-- Runs an instruction whose operand cannot change. -/
def perform (P : Platform) (ins : Instruction) (σ : Moment) : Turn :=
  match ins.opcode with
  | some .pushConst => .next (σ.push ins.operand.toValue)
  | some .loadLocal => .next (σ.push (σ.locals ins.operand.toValue))
  | some .storeLocal =>
    match σ.pop? with
    | some (v, τ) => .next { τ with locals := τ.locals.write ins.operand.toValue v }
    | none => .halted .underflow σ
  | some .arith =>
    match ins.operand with
    | .operation op => operate P op σ
    | .value _ => .halted .stuck σ
  | some .dup =>
    match σ.pop? with
    | some (v, _) => .next (σ.push v)
    | none => .halted .underflow σ
  | some .pop =>
    match σ.pop? with
    | some (_, τ) => .next τ
    | none => .halted .underflow σ
  | some .nop => .next σ
  | some .branch =>
    match ins.aims.head? with
    | some t => .jump t σ
    | none => .halted .stuck σ
  | some .condBranch =>
    match σ.popMany? ins.conditionArity with
    | none => .halted .underflow σ
    | some (operands, τ) =>
      if P.world.decides σ.seen ins.mnemonic operands then
        match ins.aims.head? with
        | some t => .jump t τ
        | none => .halted .stuck τ
      else .next τ
  | some .switch =>
    match σ.pop? with
    | none => .halted .underflow σ
    | some (v, τ) =>
      match ins.chosen? v with
      | some t => .jump t τ
      | none => .next τ
  | some .leave =>
    match ins.aims.head? with
    | some t => .jump t { σ with stack := [] }
    | none => .halted .stuck σ
  | some .sizeOf =>
    match ins.operand.text?.bind fun type =>
        P.machine.sizes.toOption.bind fun table => table.get? type with
    | some size => .next (σ.push size.fixed)
    | none => .next (σ.push (P.world.size σ.seen ins.operand))
  | some .other =>
    match affect P ins σ with
    | none => .halted .underflow σ
    | some τ => if P.terminators.contains ins.mnemonic then .halted .stopped τ else .next τ
  | none => .halted .stuck σ

/-- Runs an instruction. A list in its operand is taken as a tuple. -/
def act (P : Platform) (ins : Instruction) (σ : Moment) : Turn :=
  ins.copy.perform P σ

/-- Runs straight-line code up to the first instruction after which the next one does not
    follow. -/
def actAll (P : Platform) : List Instruction → Moment → Turn
  | [], σ => .next σ
  | ins :: rest, σ => (ins.act P σ).andThen (actAll P rest)

/-! ## What one instruction can do -/

@[simp] theorem copy_opcode (ins : Instruction) : ins.copy.opcode = ins.opcode := by
  unfold copy; split <;> rfl

theorem isBranch_of_opcode {ins : Instruction} {op : Opcode} (h : ins.opcode = some op) :
    ins.isBranch = op.isBranch := by
  rw [isBranch, h]
  rfl

theorem copy_isBranch (ins : Instruction) : ins.copy.isBranch = ins.isBranch := by
  rw [isBranch, copy_opcode]
  rfl

@[simp] theorem copy_uid (ins : Instruction) : ins.copy.uid = ins.uid := by
  unfold copy; split <;> rfl

@[simp] theorem copy_uids (code : List Instruction) :
    (code.map copy).map (·.uid) = code.map (·.uid) := by
  rw [List.map_map]
  exact List.map_congr_left fun ins _ => copy_uid ins

@[simp] theorem copy_mnemonic (ins : Instruction) : ins.copy.mnemonic = ins.mnemonic := by
  unfold copy; split <;> rfl

@[simp] theorem copy_effect (ins : Instruction) : ins.copy.effect = ins.effect := by
  unfold copy; split <;> rfl

/-- The operand of a copy is the operand with a list taken as a tuple. -/
theorem copy_operand_toValue (ins : Instruction) :
    ins.copy.operand.toValue = ins.operand.toValue.fixed := by
  obtain ⟨opcode, operand, uid, mnemonic, effect⟩ := ins
  cases operand with
  | operation op => rfl
  | value v => cases v <;> rfl

/-- The operation of an instruction is that of its copy. -/
theorem copy_operand_operation {ins : Instruction} {op : ArithOp} :
    ins.copy.operand = .operation op ↔ ins.operand = .operation op := by
  unfold copy
  split
  · rename_i items h
    rw [h]
    exact ⟨(nomatch ·), (nomatch ·)⟩
  · exact Iff.rfl

/-- The text of an operand is that of a copy. -/
theorem copy_operand_text? (ins : Instruction) : ins.copy.operand.text? = ins.operand.text? := by
  unfold copy
  split
  · rename_i items h
    rw [h]
    rfl
  · rfl

theorem copy_conditionArity (ins : Instruction) :
    ins.copy.conditionArity = ins.conditionArity := by
  unfold conditionArity
  rw [copy_mnemonic]

theorem copy_declaredEffect (ins : Instruction) :
    ins.copy.declaredEffect = ins.declaredEffect := by
  unfold declaredEffect
  rw [copy_effect]

@[simp] theorem copy_copy (ins : Instruction) : ins.copy.copy = ins.copy := by
  obtain ⟨opcode, operand, uid, mnemonic, effect⟩ := ins
  cases operand with
  | operation op => rfl
  | value v => cases v <;> rfl

/-- A copy runs like the instruction. -/
@[simp] theorem act_copy (P : Platform) (ins : Instruction) (σ : Moment) :
    ins.copy.act P σ = ins.act P σ := by
  rw [act, act, copy_copy]

/-- An operation goes on to the next instruction or ends the run, and shows nothing. -/
theorem operate_cases (P : Platform) (op : ArithOp) (σ : Moment) :
    (∃ τ, operate P op σ = .next τ ∧ τ.seen = σ.seen)
      ∨ ∃ how τ, operate P op σ = .halted how τ ∧ τ.seen = σ.seen := by
  unfold operate
  cases hpop : σ.popMany? op.arity with
  | none => exact Or.inr ⟨_, _, rfl, rfl⟩
  | some r =>
    obtain ⟨operands, τ⟩ := r
    obtain ⟨-, -, rfl⟩ := Moment.popMany?_eq_some hpop
    dsimp only
    split
    · exact Or.inl ⟨_, rfl, rfl⟩
    · split
      · exact Or.inl ⟨_, rfl, rfl⟩
      · exact Or.inr ⟨_, _, rfl, rfl⟩

/-- An instruction of no other kind leaves one event. -/
theorem affect_seen {P : Platform} {ins : Instruction} {σ τ : Moment}
    (h : affect P ins σ = some τ) : τ.seen = ins.event σ :: σ.seen := by
  unfold affect at h
  split at h
  · rename_i pops pushes heff
    cases hpop : σ.popMany? pops.toNat with
    | none => simp [hpop] at h
    | some r =>
      simp only [hpop, Option.map_some, Option.some.injEq] at h
      rw [← h]
  · simp only [Option.some.injEq] at h
    rw [← h]

/-- The target that a dispatch goes to is one of its targets. -/
theorem mem_aims_of_chosen {ins : Instruction} {selector t : Value}
    (h : ins.chosen? selector = some t) : t ∈ ins.aims := by
  obtain ⟨n, -, hn⟩ := Option.bind_eq_some_iff.mp h
  split at hn
  · exact List.mem_of_getElem? hn
  · cases hn

/-- What an instruction can do: let the next one follow where control can fall through, jump
    to one of its targets, or end the run. One of no other kind leaves an event, the others
    leave none. -/
inductive Does (P : Platform) (ins : Instruction) (σ : Moment) : Turn → Prop where
  | next {τ : Moment} (falls : ins.fallsThrough P.terminators = true)
      (seen : τ.seen = σ.seen) : Does P ins σ (.next τ)
  | jump {t : Value} {τ : Moment} (branch : ins.isBranch = true) (target : t ∈ ins.copy.aims)
      (seen : τ.seen = σ.seen) : Does P ins σ (.jump t τ)
  | halt {how : Ending} {τ : Moment} (seen : τ.seen = σ.seen) : Does P ins σ (.halted how τ)
  | tell {τ : Moment} (falls : ins.fallsThrough P.terminators = true)
      (seen : τ.seen = ins.copy.event σ :: σ.seen) : Does P ins σ (.next τ)
  | stop {how : Ending} {τ : Moment} (seen : τ.seen = ins.copy.event σ :: σ.seen) :
      Does P ins σ (.halted how τ)

/-- An instruction does nothing else. -/
theorem act_does (P : Platform) (ins : Instruction) (σ : Moment) :
    ins.Does P σ (ins.act P σ) := by
  have hfalls : ∀ op, ins.opcode = some op → op ≠ .other → op.isUnconditional = false →
      ins.fallsThrough P.terminators = true := by
    intro op hop hother hstays
    unfold fallsThrough
    cases op <;> simp_all
  have hbranch : ∀ op, ins.opcode = some op → op.isBranch = true → ins.isBranch = true :=
    fun op hop hb => (isBranch_of_opcode hop).trans hb
  unfold act perform
  rw [copy_opcode, copy_mnemonic]
  cases hop : ins.opcode with
  | none => exact .halt rfl
  | some op =>
    cases op with
    | pushConst => exact .next (hfalls _ hop (by decide) rfl) rfl
    | loadLocal => exact .next (hfalls _ hop (by decide) rfl) rfl
    | nop => exact .next (hfalls _ hop (by decide) rfl) rfl
    | storeLocal =>
      dsimp only
      split
      · rename_i hpop
        exact .next (hfalls _ hop (by decide) rfl) (Moment.pop?_eq_some hpop).2.2
      · exact .halt rfl
    | arith =>
      dsimp only
      split
      · rename_i operation _
        rcases operate_cases P operation σ with ⟨τ, heq, hseen⟩ | ⟨how, τ, heq, hseen⟩
        · rw [heq]
          exact .next (hfalls _ hop (by decide) rfl) hseen
        · rw [heq]
          exact .halt hseen
      · exact .halt rfl
    | dup =>
      dsimp only
      split
      · exact .next (hfalls _ hop (by decide) rfl) rfl
      · exact .halt rfl
    | pop =>
      dsimp only
      split
      · rename_i hpop
        exact .next (hfalls _ hop (by decide) rfl) (Moment.pop?_eq_some hpop).2.2
      · exact .halt rfl
    | sizeOf => dsimp only; split <;> exact .next (hfalls _ hop (by decide) rfl) rfl
    | branch =>
      dsimp only
      split
      · rename_i ht
        exact .jump (hbranch _ hop rfl) (List.mem_of_mem_head? ht) rfl
      · exact .halt rfl
    | leave =>
      dsimp only
      split
      · rename_i ht
        exact .jump (hbranch _ hop rfl) (List.mem_of_mem_head? ht) rfl
      · exact .halt rfl
    | condBranch =>
      dsimp only
      split
      · exact .halt rfl
      · rename_i hpop
        obtain ⟨-, -, rfl⟩ := Moment.popMany?_eq_some hpop
        split
        · split
          · rename_i ht
            exact .jump (hbranch _ hop rfl) (List.mem_of_mem_head? ht) rfl
          · exact .halt rfl
        · exact .next (hfalls _ hop (by decide) rfl) rfl
    | switch =>
      dsimp only
      split
      · exact .halt rfl
      · rename_i hpop
        have hseen := (Moment.pop?_eq_some hpop).2.2
        split
        · rename_i ht
          exact .jump (hbranch _ hop rfl) (mem_aims_of_chosen ht) hseen
        · exact .next (hfalls _ hop (by decide) rfl) hseen
    | other =>
      dsimp only
      cases haffect : affect P ins.copy σ with
      | none => exact .halt rfl
      | some τ =>
        dsimp only
        split
        · exact .stop (affect_seen haffect)
        · rename_i hstop
          exact .tell (by simpa [fallsThrough, hop] using hstop) (affect_seen haffect)

/-- Events are only ever added. -/
theorem seen_suffix_act (P : Platform) (ins : Instruction) (σ : Moment) :
    σ.seen <:+ (ins.act P σ).moment.seen := by
  have hdoes := act_does P ins σ
  generalize ins.act P σ = turn at hdoes ⊢
  have hquiet : ∀ {τ : Moment}, τ.seen = σ.seen → σ.seen <:+ τ.seen :=
    fun h => h ▸ List.suffix_refl _
  have htold : ∀ {τ : Moment}, τ.seen = ins.copy.event σ :: σ.seen → σ.seen <:+ τ.seen :=
    fun h => h ▸ List.suffix_cons _ _
  cases hdoes with
  | next _ seen => exact hquiet seen
  | jump _ _ seen => exact hquiet seen
  | halt seen => exact hquiet seen
  | tell _ seen => exact htold seen
  | stop seen => exact htold seen

/-- The next instruction only follows where control can fall through. -/
theorem fallsThrough_of_act {P : Platform} {ins : Instruction} {σ τ : Moment}
    (h : ins.act P σ = .next τ) : ins.fallsThrough P.terminators = true := by
  have hdoes := act_does P ins σ
  rw [h] at hdoes
  cases hdoes with
  | next falls _ => exact falls
  | tell falls _ => exact falls

/-- A jump goes to a target of a branch. -/
theorem mem_aims_of_act {P : Platform} {ins : Instruction} {σ τ : Moment} {t : Value}
    (h : ins.act P σ = .jump t τ) : ins.isBranch = true ∧ t ∈ ins.copy.aims := by
  have hdoes := act_does P ins σ
  rw [h] at hdoes
  cases hdoes with
  | jump branch target _ => exact ⟨branch, target⟩

/-! ## Straight-line code -/

theorem actAll_cons (P : Platform) (ins : Instruction) (rest : List Instruction)
    (σ : Moment) : actAll P (ins :: rest) σ = (ins.act P σ).andThen (actAll P rest) := rfl

@[simp] theorem actAll_singleton (P : Platform) (ins : Instruction) (σ : Moment) :
    actAll P [ins] σ = ins.act P σ := by
  rw [actAll_cons]
  cases ins.act P σ <;> rfl

/-- Straight-line code in two parts. -/
theorem actAll_append (P : Platform) (first rest : List Instruction) (σ : Moment) :
    actAll P (first ++ rest) σ = (actAll P first σ).andThen (actAll P rest) := by
  induction first generalizing σ with
  | nil => rfl
  | cons ins first ih =>
    rw [List.cons_append, actAll_cons, actAll_cons, Turn.andThen_assoc]
    congr 1
    funext τ
    exact ih τ

/-- Straight-line code only adds events. -/
theorem seen_suffix_actAll (P : Platform) (code : List Instruction) (σ : Moment) :
    σ.seen <:+ (actAll P code σ).moment.seen := by
  induction code generalizing σ with
  | nil => exact List.suffix_refl _
  | cons ins rest ih =>
    have hact := seen_suffix_act P ins σ
    rw [actAll_cons]
    cases h : ins.act P σ with
    | next τ =>
      rw [h] at hact
      exact hact.trans (ih τ)
    | jump t τ => rw [h] at hact; exact hact
    | halted how τ => rw [h] at hact; exact hact

/-- Code that is run through is empty or ends with an instruction that control can fall
    through. -/
theorem fallsThrough_of_actAll {P : Platform} {code : List Instruction} {σ τ : Moment}
    (h : actAll P code σ = .next τ) {last : Instruction} (hlast : code.getLast? = some last) :
    last.fallsThrough P.terminators = true := by
  obtain ⟨init, rfl⟩ := List.getLast?_eq_some_iff.mp hlast
  rw [actAll_append] at h
  obtain ⟨ρ, -, hρ⟩ := Turn.andThen_eq_next h
  rw [actAll_singleton] at hρ
  exact fallsThrough_of_act hρ

/-- Code is left by a jump only from an instruction that has the target. -/
theorem mem_aims_of_actAll {P : Platform} {code : List Instruction} {σ τ : Moment} {t : Value}
    (h : actAll P code σ = .jump t τ) :
    ∃ ins ∈ code, ins.isBranch = true ∧ t ∈ ins.copy.aims := by
  induction code generalizing σ with
  | nil => cases h
  | cons ins rest ih =>
    rw [actAll_cons] at h
    cases hact : ins.act P σ with
    | halted how ρ => rw [hact] at h; cases h
    | jump t' ρ =>
      rw [hact] at h
      cases h
      exact ⟨ins, List.mem_cons_self, mem_aims_of_act hact⟩
    | next ρ =>
      rw [hact] at h
      obtain ⟨i, hi, hb⟩ := ih h
      exact ⟨i, List.mem_cons_of_mem _ hi, hb⟩

end Instruction

end Untangle
