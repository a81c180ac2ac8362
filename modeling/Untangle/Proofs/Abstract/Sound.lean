/-
  Untangle.Proofs.Abstract.Sound

  What an abstract stack says about a real one: where it knows an integer, that integer is
  there, unless the real stack is not so deep. Whatever an instruction may do keeps this, and
  gives what is known of it (`Describes.may`). So it is kept by running an instruction in any
  world, and by running a block.
-/
import Untangle.Proofs.Abstract.Order
import Untangle.Proofs.Execution.Walk

namespace Untangle

theorem integer?_eq_some {a : AbstractValue} {n : Int} :
    a.integer? = some n ↔ a = .known (.int n) := by
  cases a with
  | unknown => exact ⟨(nomatch ·), (nomatch ·)⟩
  | known v =>
    cases v with
    | int k =>
      show some k = some n ↔ _
      constructor
      · intro h; cases h; rfl
      · intro h; cases h; rfl
    | _ => exact ⟨(nomatch ·), (nomatch ·)⟩

variable {m : Machine}

namespace AbstractStack

/-- A stack has the integers that are known, as far down as it goes. -/
def Describes (s : AbstractStack) (stack : List Value) : Prop :=
  ∀ i n, s.valueAt i = .known (.int n) → ∀ v, stack[i]? = some v → v = .int n

/-- A stack of which no integer is known describes every stack. -/
theorem describes_of_forall {s : AbstractStack} (h : ∀ i, s.valueAt i = .unknown)
    (stack : List Value) : s.Describes stack := fun i n hn => by
  rw [h i] at hn
  cases hn

/-- The integers that one stack knows are known on the other. -/
def Within (s t : AbstractStack) : Prop :=
  ∀ i n, s.valueAt i = .known (.int n) → t.valueAt i = .known (.int n)

theorem Within.describes {s t : AbstractStack} (h : Within s t) {stack : List Value}
    (ht : t.Describes stack) : s.Describes stack :=
  fun i n hn => ht i n (h i n hn)

namespace Describes

variable {s : AbstractStack} {stack : List Value}

theorem push (h : s.Describes stack) {a : AbstractValue} {v : Value}
    (hv : ∀ n, a = .known (.int n) → v = .int n) : (s.push a).Describes (v :: stack)
  | 0, n, hn, w, hw => by
    cases hw
    exact hv n hn
  | i + 1, n, hn, w, hw => h i n hn w hw

theorem pop {v : Value} (h : s.Describes (v :: stack)) : s.pop.2.Describes stack :=
  fun i n hn w hw => by
    rw [valueAt_pop] at hn
    exact h (i + 1) n hn w hw

/-- The value at the top. -/
theorem top {v : Value} (h : s.Describes (v :: stack)) {n : Int}
    (hn : s.pop.1 = .known (.int n)) : v = .int n := by
  rw [pop_fst] at hn
  exact h 0 n hn v rfl

theorem popMany (n : Nat) (h : s.Describes stack) :
    (s.popMany n).2.Describes (stack.drop n) := fun i k hk w hw => by
  rw [valueAt_popMany] at hk
  rw [List.getElem?_drop] at hw
  exact h (n + i) k hk w hw

/-- The operands that are taken off are those of the stack. -/
theorem operands {n : Nat} (h : s.Describes stack) (hn : n ≤ stack.length) :
    List.Forall₂ (fun a v => ∀ k, a = .known (.int k) → v = .int k) (s.popMany n).1
      (stack.take n).reverse := by
  induction n generalizing s stack with
  | zero => exact List.Forall₂.nil
  | succ n ih =>
    cases stack with
    | nil => exact absurd hn (Nat.not_succ_le_zero n)
    | cons v stack =>
      rw [popMany_succ, List.take_succ_cons, List.reverse_cons]
      refine List.rel_append (ih h.pop (Nat.le_of_succ_le_succ hn)) ?_
      exact List.Forall₂.cons (fun k hk => h.top hk) List.Forall₂.nil

theorem pushUnknown (h : s.Describes stack) (pushed : List Value) :
    (s.pushUnknown pushed.length).Describes (pushed ++ stack) := fun i n hn v hv => by
  rw [valueAt_pushUnknown] at hn
  split at hn
  · cases hn
  · rename_i hi
    rw [List.getElem?_append_right (by omega)] at hv
    exact h _ n hn v hv

end Describes

/-- An operation over operands that are known has the result that the analyses find. -/
theorem result_of_known {m : Machine} {op : ArithOp} {operands : List AbstractValue}
    {vs : List Value} {k : Int}
    (h : List.Forall₂ (fun a v => ∀ k, a = AbstractValue.known (.int k) → v = .int k) operands vs)
    (hk : resultOf m op operands = .known (.int k)) :
    op.evaluateAt vs m.width m.policy = .ok (some k) := by
  obtain ⟨ws, n, hws, hresult, heq⟩ := resultOf_eq_known.mp hk
  cases heq
  have hints := integers_of_evaluateAt hresult
  have hsame : vs = ws := by
    clear hresult hk
    induction hws generalizing vs with
    | nil => cases h; rfl
    | @cons a w operands ws ha hrest ih =>
      cases h with
      | cons hv hvs =>
        obtain ⟨j, rfl⟩ := hints w List.mem_cons_self
        rw [hv j ha, ih hvs fun v hv => hints v (List.mem_cons_of_mem _ hv)]
  rw [hsame]
  exact hresult

/-! ## One instruction -/

/-- A fact is true of the value that an instruction produces or consumes. -/
def Tells (fact : Option AbstractValue) (v : Option Value) : Prop :=
  ∀ n, fact.bind AbstractValue.integer? = some n → v = some (.int n)

theorem tells_unknown (v : Option Value) : Tells (some .unknown) v := nofun

theorem tells_none (v : Option Value) : Tells none v := nofun

theorem tells_pushed (pushes : Int) (v : Option Value) :
    Tells (if pushes == 0 then none else some .unknown) v := by
  split
  · exact tells_none v
  · exact tells_unknown v

/-- A fact that is an integer only where the value is that integer. -/
theorem tells_some {a : AbstractValue} {v : Value} (h : ∀ n, a = .known (.int n) → v = .int n) :
    Tells (some a) (some v) :=
  fun n hn => congrArg some (h n (integer?_eq_some.mp hn))

/-- A constant that is known and that the value is if it is an integer. -/
theorem tells_known {c v : Value} (h : v = c.fixed) (n : Int)
    (hn : AbstractValue.known c = .known (.int n)) : v = .int n := by
  cases hn
  exact h

namespace Describes

variable {s : AbstractStack} {stack : List Value}

/-- Taking values off the top. -/
theorem taken {front : List Value} {n : Nat} (h : s.Describes (front ++ stack))
    (hn : front.length = n) : (s.popMany n).2.Describes stack := by
  have := h.popMany n
  rwa [List.drop_left' hn] at this

/-- The operands on top of the stack have the result that is known of them. -/
theorem result {op : ArithOp} {operands : List Value}
    (h : s.Describes (operands.reverse ++ stack)) (harity : operands.length = op.arity) {n : Int}
    (hn : resultOf m op (s.popMany op.arity).1 = .known (.int n)) :
    op.evaluateAt operands m.width m.policy = .ok (some n) := by
  have hlength : operands.reverse.length = op.arity := List.length_reverse.trans harity
  have hoperands := h.operands (n := op.arity) (by rw [List.length_append]; omega)
  rw [List.take_left' hlength, List.reverse_reverse] at hoperands
  exact result_of_known hoperands hn

/-- An instruction of no other kind leaves what it declares. -/
theorem effected {pops pushes : Int} {popped pushed : List Value}
    (h : s.Describes (popped ++ stack)) (hpops : popped.length = pops.toNat)
    (hpushes : pushed.length = pushes.toNat) :
    ((s.popMany pops.toNat).2.pushUnknown pushes.toNat).Describes (pushed ++ stack) := by
  have := (h.taken hpops).pushUnknown pushed
  rwa [hpushes] at this

/-- The size that is pushed is the one that is known. -/
theorem sized {ins : Instruction} {v : Value}
    (hv : ∀ type size, ins.operand.text? = some type → m.size? type = some size →
      v = size.fixed) :
    ∀ n, (match ins.operand.text?.bind m.size? with
      | some size => AbstractValue.known size
      | none => .unknown) = .known (.int n) → v = .int n := by
  cases htext : ins.operand.text? with
  | none => exact nofun
  | some type =>
    cases hsize : m.size? type with
    | none => simp [hsize]
    | some size => simpa [hsize] using tells_known (hv type size htext hsize)

/-- However an instruction runs, the abstract stack after it describes the real one, and its
    fact is true. -/
theorem may {ins : Instruction} {stack' : List Value} {v : Option Value}
    (h : s.Describes stack) (hmay : ins.May m stack stack' v) :
    (AbstractStack.step m ins s).1.Describes stack' ∧ Tells (AbstractStack.step m ins s).2 v := by
  unfold AbstractStack.step
  -- The opcode of each case leaves one branch of the abstract step.
  cases hmay with
  | constant _ hop =>
    rw [hop]
    exact ⟨h.push (tells_known rfl), tells_some (tells_known rfl)⟩
  | load v _ hop =>
    rw [hop]
    exact ⟨h.push nofun, tells_unknown _⟩
  | take v _ hop =>
    have htop := tells_some fun n hn => h.top (n := n) hn
    rcases hop with hop | hop <;> rw [hop] <;> exact ⟨h.pop, htop⟩
  | arith _ v _ hop hoperand harity hv =>
    rw [hop, hoperand]
    have hresult := fun n hn => hv n (h.result harity hn)
    exact ⟨(h.taken (List.length_reverse.trans harity)).push hresult, tells_some hresult⟩
  | dup v _ hop =>
    rw [hop]
    have htop := fun n hn => h.top (n := n) hn
    exact ⟨(h.pop.push htop).push htop, tells_some htop⟩
  | pop v _ hop =>
    rw [hop]
    exact ⟨h.pop, tells_none _⟩
  | stay _ hop =>
    rcases hop with hop | hop <;> rw [hop] <;> exact ⟨h, tells_none _⟩
  | test _ _ hop harity =>
    rw [hop]
    exact ⟨h.taken harity, tells_none _⟩
  | leave _ hop =>
    rw [hop]
    exact ⟨describes_of_forall (fun i => rfl) _, tells_none _⟩
  | size v _ hop hv =>
    rw [hop]
    exact ⟨h.push (sized hv), tells_some (sized hv)⟩
  | effect _ _ _ hop heffect hpops hpushes =>
    have heffected := h.effected hpops hpushes
    rcases hop with hop | hop <;> rw [hop, heffect] <;> exact ⟨heffected, tells_pushed _ _⟩
  | unknown _ _ _ hop heffect =>
    have hnothing := describes_of_forall (s := AbstractStack.unknown) (fun i => rfl)
    rcases hop with hop | hop <;> rw [hop, heffect] <;> exact ⟨hnothing _, tells_none _⟩

end Describes

/-! ## Runs -/

/-- Where the run goes on after a turn, an abstract stack describes the real one. -/
def Follows (s : AbstractStack) : Turn → Prop
  | .next τ => s.Describes τ.stack
  | .jump _ τ => s.Describes τ.stack
  | .halted _ _ => True

theorem Follows.describes {s : AbstractStack} {turn : Turn} {τ : Moment} (h : s.Follows turn)
    (hgoes : turn = .next τ ∨ ∃ t, turn = .jump t τ) : s.Describes τ.stack := by
  rcases hgoes with rfl | ⟨t, rfl⟩
  · exact h
  · exact h

/-- Where a run goes on after an instruction, the abstract stack describes the real one. -/
theorem Describes.step (P : Platform) (ins : Instruction) {s : AbstractStack} {σ : Moment}
    (h : s.Describes σ.stack) :
    (AbstractStack.step P.machine ins s).1.Follows (ins.act P σ) := by
  have hmay := ins.act_may P σ
  generalize ins.act P σ = turn at hmay ⊢
  cases turn with
  | halted how τ => trivial
  | next τ =>
    obtain ⟨v, hmay⟩ := hmay
    exact (h.may hmay).1
  | jump t τ =>
    obtain ⟨v, hmay⟩ := hmay
    exact (h.may hmay).1

/-- Where a run goes on after a block, the abstract stack describes the real one. -/
theorem Describes.transfer (P : Platform) {code : List Instruction} {s : AbstractStack}
    {σ : Moment} (h : s.Describes σ.stack)
    (hstraight : ∀ ins ∈ code.dropLast, ins.isBranch = false) :
    (AbstractStack.transfer P.machine code s).Follows (Instruction.actAll P code σ) := by
  induction code generalizing s σ with
  | nil => exact h
  | cons ins code ih =>
    have hstep := h.step P ins
    rw [Instruction.actAll_cons]
    show (AbstractStack.transfer P.machine code (AbstractStack.step P.machine ins s).1).Follows _
    cases hact : ins.act P σ with
    | halted how ρ => trivial
    | next ρ =>
      rw [hact] at hstep
      refine ih hstep fun i hi => hstraight i ?_
      cases code with
      | nil => cases hi
      | cons j code => exact List.mem_cons_of_mem _ hi
    | jump t ρ =>
      rw [hact] at hstep
      -- Only the last instruction of the block can jump.
      cases code with
      | nil => exact hstep
      | cons j code =>
        have hbranch := (Instruction.mem_aims_of_act hact).1
        rw [hstraight ins List.mem_cons_self] at hbranch
        cases hbranch

end AbstractStack

end Untangle
