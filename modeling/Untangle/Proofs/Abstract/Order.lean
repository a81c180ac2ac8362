/-
  Untangle.Proofs.Abstract.Order

  Abstract stacks compared from the top down. `valueAt` is what is known about the value at
  a depth, and every operation on stacks says where its values come from. One stack weakens
  another if its values are related to those of the other one and its depth, where it is
  known, is the same. A relation between abstract values that the evaluation of operations
  keeps is then kept by running instructions (`Congruent.step`). Relations in use are that one
  stack knows no more than another (`Lower`), that the integers that it knows are known on the
  other (`Within`), and that the constants that it knows are known there up to equality
  (`Under`).
-/
import Untangle.Abstract.Facts
import Untangle.Proofs.Lists

namespace Untangle

namespace AbstractStack

/-- What is known about the value at a depth. -/
def valueAt (s : AbstractStack) (i : Nat) : AbstractValue := (s.values[i]?).getD .unknown

/-- What is taken off is what was at the top. -/
theorem pop_fst (s : AbstractStack) : s.pop.1 = s.valueAt 0 := by
  unfold pop valueAt
  cases s.values <;> rfl

theorem valueAt_pop (s : AbstractStack) (i : Nat) : s.pop.2.valueAt i = s.valueAt (i + 1) := by
  unfold pop valueAt
  cases h : s.values <;> rfl

theorem valueAt_pushUnknown (s : AbstractStack) (n i : Nat) :
    (s.pushUnknown n).valueAt i = if i < n then .unknown else s.valueAt (i - n) := by
  unfold pushUnknown valueAt
  simp only [List.getElem?_append, List.length_replicate, List.getElem?_replicate]
  split
  · rfl
  · rfl

theorem popMany_succ (n : Nat) (s : AbstractStack) :
    s.popMany (n + 1) = ((popMany n s.pop.2).1 ++ [s.pop.1], (popMany n s.pop.2).2) := rfl

theorem valueAt_popMany (n : Nat) (s : AbstractStack) (i : Nat) :
    (s.popMany n).2.valueAt i = s.valueAt (n + i) := by
  induction n generalizing s with
  | zero => rw [Nat.zero_add]; rfl
  | succ n ih =>
    rw [popMany_succ, ih, valueAt_pop]
    congr 1
    omega

/-- The result of an operation as the analyses take it. -/
def resultOf (m : Machine) (op : ArithOp) (operands : List AbstractValue) : AbstractValue :=
  ((evaluate m op operands).toOption).getD .unknown

/-- After taking a value off, the depth is known if it was and there was a value. -/
theorem depthKnown_pop (s : AbstractStack) :
    s.pop.2.depthKnown = (s.depthKnown && !s.values.isEmpty) := by
  unfold pop
  cases s.values with
  | nil => simp [unknown]
  | cons v rest => simp

theorem length_pop (s : AbstractStack) : s.pop.2.values.length = s.values.length - 1 := by
  unfold pop
  cases s.values <;> rfl

/-- One stack weakens another: what it knows is related to what the other one knows at every
    depth, and its own depth, if known, is that of the other one. -/
structure Weakens (R : AbstractValue → AbstractValue → Prop) (s t : AbstractStack) : Prop where
  depth : s.depthKnown = true → t.depthKnown = true ∧ s.values.length = t.values.length
  values : ∀ i, R (s.valueAt i) (t.valueAt i)

namespace Weakens

variable {R : AbstractValue → AbstractValue → Prop} {s t : AbstractStack}

theorem push (h : Weakens R s t) {a b : AbstractValue} (hab : R a b) :
    Weakens R (s.push a) (t.push b) where
  depth hs := ⟨(h.depth hs).1, congrArg (· + 1) (h.depth hs).2⟩
  values
    | 0 => hab
    | i + 1 => h.values i

/-- What is at the top is related. -/
theorem top (h : Weakens R s t) : R s.pop.1 t.pop.1 := by
  rw [pop_fst, pop_fst]
  exact h.values 0

theorem pop (h : Weakens R s t) : Weakens R s.pop.2 t.pop.2 where
  depth hs := by
    rw [depthKnown_pop, Bool.and_eq_true] at hs
    obtain ⟨ht, hlength⟩ := h.depth hs.1
    have hsome : t.values.isEmpty = s.values.isEmpty := by
      rw [Bool.eq_iff_iff, List.isEmpty_iff_length_eq_zero, List.isEmpty_iff_length_eq_zero,
        hlength]
    rw [depthKnown_pop, length_pop, length_pop, ht, hsome, hs.2, hlength]
    exact ⟨rfl, rfl⟩
  values i := by
    rw [valueAt_pop, valueAt_pop]
    exact h.values (i + 1)

theorem popMany (n : Nat) (h : Weakens R s t) :
    List.Forall₂ R (s.popMany n).1 (t.popMany n).1
      ∧ Weakens R (s.popMany n).2 (t.popMany n).2 := by
  induction n generalizing s t with
  | zero => exact ⟨List.Forall₂.nil, h⟩
  | succ n ih =>
    obtain ⟨hvalues, hrest⟩ := ih h.pop
    rw [popMany_succ, popMany_succ]
    exact ⟨List.rel_append hvalues (List.Forall₂.cons h.top List.Forall₂.nil), hrest⟩

/-- A depth that is known is the same. -/
theorem depth? (h : Weakens R s t) {d : Nat} (hd : s.depth? = some d) : t.depth? = some d := by
  unfold AbstractStack.depth? at hd ⊢
  split at hd
  · rename_i hs
    obtain ⟨ht, hlength⟩ := h.depth hs
    rw [if_pos ht, ← hlength]
    exact hd
  · cases hd

theorem trans (hR : ∀ a b c, R a b → R b c → R a c) {u : AbstractStack} (h : Weakens R s t)
    (h' : Weakens R t u) : Weakens R s u where
  depth hs := by
    obtain ⟨ht, hlength⟩ := h.depth hs
    exact ⟨(h'.depth ht).1, hlength.trans (h'.depth ht).2⟩
  values i := hR _ _ _ (h.values i) (h'.values i)

end Weakens

/-- Code behind other code runs from where that leads. -/
theorem transfer_append (m : Machine) (code more : List Instruction) (s : AbstractStack) :
    transfer m (code ++ more) s = transfer m more (transfer m code s) :=
  List.foldl_append

/-- A relation between what is known that running instructions keeps. -/
structure Congruent (m : Machine) (R : AbstractValue → AbstractValue → Prop) : Prop where
  refl : ∀ a, R a a
  result : ∀ op as bs, List.Forall₂ R as bs → R (resultOf m op as) (resultOf m op bs)

namespace Congruent

variable {m : Machine} {R : AbstractValue → AbstractValue → Prop} {s t : AbstractStack}

theorem weakens_refl (hR : Congruent m R) (s : AbstractStack) : Weakens R s s :=
  ⟨fun hs => ⟨hs, rfl⟩, fun _ => hR.refl _⟩

theorem pushUnknown (hR : Congruent m R) (n : Nat) (h : Weakens R s t) :
    Weakens R (s.pushUnknown n) (t.pushUnknown n) where
  depth hs := by
    obtain ⟨ht, hlength⟩ := h.depth hs
    refine ⟨ht, ?_⟩
    show (List.replicate n _ ++ s.values).length = (List.replicate n _ ++ t.values).length
    rw [List.length_append, List.length_append, hlength]
  values i := by
    rw [valueAt_pushUnknown, valueAt_pushUnknown]
    split
    · exact hR.refl _
    · exact h.values _

/-- Running an instruction keeps what is related, and gives facts that are related. -/
theorem step (hR : Congruent m R) (ins : Instruction) (h : Weakens R s t) :
    Weakens R (step m ins s).1 (step m ins t).1
      ∧ Option.Rel R (step m ins s).2 (step m ins t).2 := by
  unfold AbstractStack.step
  cases ins.opcode with
  | none =>
    dsimp only
    cases ins.declaredEffect with
    | none => exact ⟨hR.weakens_refl _, .none⟩
    | some effect =>
      refine ⟨hR.pushUnknown _ (h.popMany _).2, ?_⟩
      dsimp only
      split
      · exact .none
      · exact .some (hR.refl _)
  | some op =>
    cases op with
    | pushConst => exact ⟨h.push (hR.refl _), .some (hR.refl _)⟩
    | loadLocal => exact ⟨h.push (hR.refl _), .some (hR.refl _)⟩
    | storeLocal => exact ⟨h.pop, .some h.top⟩
    | switch => exact ⟨h.pop, .some h.top⟩
    | arith =>
      cases ins.operand with
      | value v => exact ⟨hR.weakens_refl _, .none⟩
      | operation op =>
        obtain ⟨hoperands, hrest⟩ := h.popMany op.arity
        have hresult := hR.result op _ _ hoperands
        exact ⟨hrest.push hresult, .some hresult⟩
    | dup => exact ⟨(h.pop.push h.top).push h.top, .some h.top⟩
    | pop => exact ⟨h.pop, .none⟩
    | nop => exact ⟨h, .none⟩
    | branch => exact ⟨h, .none⟩
    | condBranch => exact ⟨(h.popMany _).2, .none⟩
    | leave => exact ⟨hR.weakens_refl _, .none⟩
    | sizeOf => exact ⟨h.push (hR.refl _), .some (hR.refl _)⟩
    | other =>
      dsimp only
      cases ins.declaredEffect with
      | none => exact ⟨hR.weakens_refl _, .none⟩
      | some effect =>
        refine ⟨hR.pushUnknown _ (h.popMany _).2, ?_⟩
        dsimp only
        split
        · exact .none
        · exact .some (hR.refl _)

/-- Running a block keeps what is related. -/
theorem transfer (hR : Congruent m R) (code : List Instruction) (h : Weakens R s t) :
    Weakens R (transfer m code s) (AbstractStack.transfer m code t) := by
  induction code generalizing s t with
  | nil => exact h
  | cons ins code ih => exact ih (hR.step ins h).1

end Congruent

/-! ## Knowing no more -/

/-- What is known is known alike on the other side. -/
def NoMore (a b : AbstractValue) : Prop := ∀ v, a = .known v → b = .known v

/-- One stack knows no more than another. -/
abbrev Lower (s t : AbstractStack) : Prop := Weakens NoMore s t

theorem NoMore.trans {a b c : AbstractValue} (h : NoMore a b) (h' : NoMore b c) : NoMore a c :=
  fun v hv => h' v (h v hv)

theorem Lower.refl (s : AbstractStack) : Lower s s := ⟨fun hs => ⟨hs, rfl⟩, fun _ _ hv => hv⟩

theorem Lower.trans {s t u : AbstractStack} (h : Lower s t) (h' : Lower t u) : Lower s u :=
  Weakens.trans (R := NoMore) (fun _ _ _ => NoMore.trans) h h'

/-- The stack of which nothing is known weakens every stack. -/
theorem unknown_weakens {R : AbstractValue → AbstractValue → Prop} (hR : ∀ a, R .unknown a)
    (s : AbstractStack) : Weakens R unknown s :=
  ⟨fun h => (Bool.false_ne_true h).elim, fun _ => hR _⟩

theorem unknown_noMore (a : AbstractValue) : NoMore .unknown a := fun v hv => by cases hv

theorem unknown_lower (s : AbstractStack) : Lower unknown s := unknown_weakens unknown_noMore s

/-- The constants among operands, if all are known. -/
theorem constants_eq_some {operands : List AbstractValue} {vs : List Value} :
    operands.mapM AbstractValue.constant? = some vs
      ↔ List.Forall₂ (fun a v => a = .known v) operands vs := by
  induction operands generalizing vs with
  | nil =>
    rw [List.mapM_nil]
    constructor
    · intro h; cases h; exact List.Forall₂.nil
    · intro h; cases h; rfl
  | cons a operands ih =>
    rw [List.mapM_cons]
    cases a with
    | unknown =>
      constructor
      · intro h; cases h
      · intro h; cases h with | cons ha _ => cases ha
    | known v =>
      constructor
      · intro h
        cases hrest : operands.mapM AbstractValue.constant? with
        | none => rw [hrest] at h; cases h
        | some ws =>
          rw [hrest] at h
          cases h
          exact List.Forall₂.cons rfl (ih.mp hrest)
      · intro h
        cases h with
        | cons ha hrest => cases ha; rw [ih.mpr hrest]; rfl

/-- The result of an operation is known only from operands that are all known. -/
theorem resultOf_eq_known {m : Machine} {op : ArithOp} {operands : List AbstractValue}
    {v : Value} : resultOf m op operands = .known v
      ↔ ∃ vs n, List.Forall₂ (fun a v => a = .known v) operands vs
          ∧ op.evaluateAt vs m.width m.policy = .ok (some n) ∧ v = .int n := by
  unfold resultOf evaluate
  constructor
  · intro h
    cases hvs : operands.mapM AbstractValue.constant? with
    | none => rw [hvs] at h; cases h
    | some vs =>
      rw [hvs] at h
      dsimp only at h
      cases hresult : op.evaluateAt vs m.width m.policy with
      | error e => rw [hresult] at h; cases h
      | ok r =>
        rw [hresult] at h
        cases r with
        | none => cases h
        | some n => cases h; exact ⟨vs, n, constants_eq_some.mp hvs, hresult, rfl⟩
  · rintro ⟨vs, n, hvs, hresult, rfl⟩
    rw [constants_eq_some.mpr hvs]
    dsimp only
    rw [hresult]
    rfl

/-- An operation has a result by itself only for integers. -/
theorem integers_of_evaluateAt {op : ArithOp} {vs : List Value} {width : GivenWidth}
    {policy : OverflowPolicy} {n : Int} (h : op.evaluateAt vs width policy = .ok (some n)) :
    ∀ v ∈ vs, ∃ k, v = .int k := by
  unfold ArithOp.evaluateAt at h
  split at h
  · cases h
  · rename_i hints
    intro v hv
    rw [Bool.or_eq_true, not_or, List.any_eq_true] at hints
    cases v with
    | int k => exact ⟨k, rfl⟩
    | _ => exact absurd ⟨_, hv, rfl⟩ hints.2

/-- A relation that lets go of no integer keeps the results of operations. -/
theorem resultOf_keeps {m : Machine} {op : ArithOp} {R : AbstractValue → AbstractValue → Prop}
    (hR : ∀ a b n, R a b → a = .known (.int n) → b = .known (.int n)) {as bs : List AbstractValue}
    (h : List.Forall₂ R as bs) {v : Value} (hv : resultOf m op as = .known v) :
    resultOf m op bs = .known v := by
  obtain ⟨vs, n, hvs, hresult, rfl⟩ := resultOf_eq_known.mp hv
  refine resultOf_eq_known.mpr ⟨vs, n, ?_, hresult, rfl⟩
  have hints := integers_of_evaluateAt hresult
  clear hv hresult
  -- There is a result, so all operands are integers.
  induction h generalizing vs with
  | nil => cases hvs; exact List.Forall₂.nil
  | cons hab _ ih =>
    cases hvs with
    | cons ha hrest =>
      obtain ⟨k, rfl⟩ := hints _ List.mem_cons_self
      exact List.Forall₂.cons (hR _ _ k hab ha) (ih _ hrest fun v hv =>
        hints v (List.mem_cons_of_mem _ hv))

theorem noMore_congruent (m : Machine) : Congruent m NoMore where
  refl _ _ h := h
  result _ _ _ h _ hv := resultOf_keeps (fun _ _ _ hab ha => hab _ ha) h hv

end AbstractStack

end Untangle
