/-
  Untangle.Proofs.Arith

  Wrapping arithmetic at a width is arithmetic on bit vectors: the operands are cut to
  bit vectors of the width, the operation is the one on bit vectors, and the result is
  the bit vector read as a signed number.

  Where a result has to fit, it is the exact one or it is refused. Shifting to the left
  never has to fit: it wraps whatever the policy is.
-/
import Untangle.Arith.Evaluate
import Mathlib.Data.Int.ModEq
import Mathlib.Tactic.Positivity

namespace Untangle

/-! ## Numbers of a width as bit vectors -/

namespace Width

theorem bits_pos (w : Width) : 0 < w.bits := by cases w <;> decide

/-- The bit vector of a width with the low bits of a number. -/
def cut (w : Width) (n : Int) : BitVec w.bits := BitVec.ofInt w.bits n

theorem toSigned_eq (w : Width) (n : Int) : w.toSigned n = (w.cut n).toInt :=
  BitVec.toInt_ofInt n |>.symm

@[simp] theorem toSigned_toInt (w : Width) (x : BitVec w.bits) : w.toSigned x.toInt = x.toInt := by
  rw [toSigned_eq, cut, BitVec.ofInt_toInt]

@[simp] theorem toUnsigned_toInt (w : Width) (x : BitVec w.bits) :
    w.toUnsigned x.toInt = x.toNat := by
  have low : x.toNat = (x.toInt % (2 ^ w.bits : Nat)).toNat := by
    rw [← BitVec.toNat_ofInt, BitVec.ofInt_toInt]
  rw [low, Int.toNat_of_nonneg (Int.emod_nonneg _ (by positivity))]
  rfl

theorem toSigned_natCast (w : Width) (n : Nat) : w.toSigned n = (BitVec.ofNat w.bits n).toInt := by
  rw [toSigned_eq, cut, BitVec.ofInt_natCast]

theorem cut_eq_of_modEq {w : Width} {a b : Int} (same : a ≡ b [ZMOD 2 ^ w.bits]) :
    w.cut a = w.cut b := by
  apply BitVec.eq_of_toNat_eq
  have rest : a % (2 ^ w.bits : Nat) = b % (2 ^ w.bits : Nat) := by exact_mod_cast same
  simp only [cut, BitVec.toNat_ofInt, rest]

theorem map_cut_eq {w : Width} {as bs : List Int}
    (same : List.Forall₂ (fun a b => a ≡ b [ZMOD 2 ^ w.bits]) as bs) :
    as.map w.cut = bs.map w.cut := by
  induction same with
  | nil => rfl
  | cons head _ ih => rw [List.map_cons, List.map_cons, cut_eq_of_modEq head, ih]

/-- The numbers of a width are read as themselves. -/
theorem toSigned_of_fits {w : Width} {n : Int} (fit : w.fits n = true) : w.toSigned n = n := by
  obtain ⟨least, most⟩ : -2 ^ (w.bits - 1) ≤ n ∧ n < 2 ^ (w.bits - 1) := by
    simpa [fits, Number.twoTo] using fit
  rw [toSigned_eq]
  exact BitVec.toInt_ofInt_eq_self w.bits_pos least most

/-- What is read at a width is a number of the width. -/
theorem fits_toSigned (w : Width) (n : Int) : w.fits (w.toSigned n) = true := by
  rw [toSigned_eq]
  simpa [fits, Number.twoTo] using
    And.intro (BitVec.le_toInt (w.cut n)) (BitVec.toInt_lt (x := w.cut n))

theorem toSigned_eq_self_iff {w : Width} {n : Int} : w.toSigned n = n ↔ w.fits n = true :=
  ⟨fun same => same ▸ w.fits_toSigned n, toSigned_of_fits⟩

theorem map_toSigned (w : Width) (ns : List Int) :
    ns.map w.toSigned = (ns.map w.cut).map BitVec.toInt := by
  rw [List.map_map]
  exact List.map_congr_left fun n _ => w.toSigned_eq n

end Width

/-! ## Operations on bit vectors -/

namespace ArithOp

/-- What an operation does to bit vectors. Where the operation has no result this is some
    vector that means nothing, as it is for the wrong number of operands. -/
def onBits {n : Nat} (op : ArithOp) : List (BitVec n) → BitVec n
  | [x] =>
    match op with
    | .neg => -x
    | .not => ~~~x
    | _ => 0
  | [x, y] =>
    match op with
    | .add | .addOvf => x + y
    | .sub | .subOvf => x - y
    | .mul | .mulOvf => x * y
    | .div => x.sdiv y
    | .rem => x.srem y
    | .divUn => x.udiv y
    | .remUn => x.umod y
    | .and => x &&& y
    | .or => x ||| y
    | .xor => x ^^^ y
    | .shl => x <<< y.toNat
    | .shr => x.sshiftRight y.toNat
    | .shrUn => x >>> y.toNat
    | .neg | .not => 0
  | _ => 0

/-- The operands, signed numbers of some bits, on which an operation has no result: a
    divisor that is zero, the least number by minus one, a shift by less than nothing or
    by all the bits. -/
def Undefined (op : ArithOp) (bits : Nat) : List Int → Prop
  | [a, b] =>
    match op with
    | .div | .rem => b = 0 ∨ (a = -2 ^ (bits - 1) ∧ b = -1)
    | .divUn | .remUn => b = 0
    | .shl | .shr | .shrUn => b < 0 ∨ (bits : Int) ≤ b
    | _ => False
  | _ => False

instance (op : ArithOp) (bits : Nat) (operands : List Int) :
    Decidable (op.Undefined bits operands) := by
  unfold Undefined
  split
  · split <;> infer_instance
  · infer_instance

/-! ## Evaluation on bit vectors -/

variable {w : Width}

theorem evaluateUnary_wrap {op : ArithOp} (unary : op.arity = 1) (x : BitVec w.bits) :
    op.evaluateUnary w .wrap x.toInt = .ok (some (op.onBits [x]).toInt) := by
  cases op with
  | neg =>
    have exact : w.toSigned (-x.toInt) = (-x).toInt := BitVec.toInt_neg.symm
    simp only [evaluateUnary, onBits, ← exact]
    rfl
  | not =>
    have exact : w.cut (-x.toInt - 1) = ~~~x := by
      rw [BitVec.not_eq_neg_add, BitVec.sub_eq_add_neg, Width.cut, Int.sub_eq_add_neg,
        BitVec.ofInt_add, BitVec.ofInt_neg, BitVec.ofInt_neg, BitVec.ofInt_toInt]
      rfl
    simp only [evaluateUnary, onBits, Width.toSigned_eq, exact]
  | _ => cases unary

theorem bitwise_toInt (f : Nat → Nat → Nat) (x y : BitVec w.bits) :
    bitwise w f x.toInt y.toInt = (BitVec.ofNat w.bits (f x.toNat y.toNat)).toInt := by
  simp [bitwise, Width.toSigned_natCast]

/-- A shift to the left multiplies by a power of two. -/
theorem toSigned_shiftLeft (x : BitVec w.bits) (k : Nat) :
    w.toSigned (x.toInt * Number.twoTo k) = (x <<< k).toInt := by
  have power : BitVec.ofNat w.bits (Number.twoTo k) = BitVec.twoPow w.bits k :=
    BitVec.eq_of_toNat_eq (by rw [BitVec.toNat_ofNat, BitVec.toNat_twoPow]; rfl)
  rw [Width.toSigned_eq, Width.cut, BitVec.ofInt_mul, BitVec.ofInt_toInt, BitVec.ofInt_natCast,
    power, BitVec.shiftLeft_eq_mul_twoPow]

/-- A shift to the right rounds down, whatever the sign. -/
theorem toInt_div_twoTo (x : BitVec w.bits) (k : Nat) :
    x.toInt / Number.twoTo k = (x.sshiftRight k).toInt := by
  rw [BitVec.toInt_sshiftRight, Int.shiftRight_eq_div_pow]
  rfl

/-- A shift to the right of the unsigned number divides it by a power of two. -/
theorem toSigned_ushiftRight (x : BitVec w.bits) (k : Nat) :
    w.toSigned ((x.toNat : Int) / Number.twoTo k) = (x >>> k).toInt := by
  have quotient : BitVec.ofNat w.bits (x.toNat / Number.twoTo k) = x >>> k := by
    apply BitVec.eq_of_toNat_eq
    rw [BitVec.toNat_ofNat, BitVec.toNat_ushiftRight, Nat.shiftRight_eq_div_pow]
    exact Nat.mod_eq_of_lt (lt_of_le_of_lt (Nat.div_le_self _ _) x.isLt)
  rw [← quotient, ← Width.toSigned_natCast]
  rfl

/-- The dividends and divisors that signed division refuses. -/
theorem refuses_iff (a b : Int) (bits : Nat) :
    (b == 0 || (b == -1 && a == -(Number.twoTo (bits - 1) : Int))) = true ↔
      b = 0 ∨ (a = -2 ^ (bits - 1) ∧ b = -1) := by
  simp [Number.twoTo, and_comm]

theorem toNat_beq_zero (y : BitVec w.bits) : ((y.toNat : Int) == 0) = true ↔ y.toInt = 0 := by
  rw [beq_iff_eq, Int.natCast_eq_zero, ← BitVec.toInt_zero (w := w.bits), BitVec.toInt_inj,
    ← BitVec.toNat_inj, BitVec.toNat_zero]

/-- A shift that has a result shifts by the bit vector of its count. -/
theorem shift_eq {exact : Nat → Int} {shifted : Nat → BitVec w.bits}
    (each : ∀ k, exact k = (shifted k).toInt) (y : BitVec w.bits) :
    (if (decide (y.toInt < 0) || decide ((w.bits : Int) ≤ y.toInt)) = true then none
      else some (exact y.toInt.toNat)) =
    if y.toInt < 0 ∨ (w.bits : Int) ≤ y.toInt then none else some (shifted y.toNat).toInt := by
  by_cases oversized : y.toInt < 0 ∨ (w.bits : Int) ≤ y.toInt
  · simp [oversized]
  · have positive : y.msb = false := by rw [BitVec.msb_eq_toInt]; simp; omega
    simp [oversized, each, BitVec.toNat_toInt_of_msb y positive]

theorem evaluateBinary_wrap {op : ArithOp} (binary : op.arity = 2) (unchecked : op.checked = false)
    (x y : BitVec w.bits) :
    op.evaluateBinary w .wrap x.toInt y.toInt =
      .ok (if op.Undefined w.bits [x.toInt, y.toInt] then none
        else some (op.onBits [x, y]).toInt) := by
  cases op with
  | add =>
    have sum : w.toSigned (x.toInt + y.toInt) = (x + y).toInt := (BitVec.toInt_add x y).symm
    simp only [Undefined, onBits, ← sum]
    rfl
  | sub =>
    have difference : w.toSigned (x.toInt - y.toInt) = (x - y).toInt := BitVec.toInt_sub.symm
    simp only [Undefined, onBits, ← difference]
    rfl
  | mul =>
    have product : w.toSigned (x.toInt * y.toInt) = (x * y).toInt := (BitVec.toInt_mul x y).symm
    simp only [Undefined, onBits, ← product]
    rfl
  | and | or | xor => simp [evaluateBinary, Undefined, onBits, bitwise_toInt]
  | div =>
    have quotient : w.toSigned (x.toInt.tdiv y.toInt) = (x.sdiv y).toInt :=
      (BitVec.toInt_sdiv x y).symm
    simp only [evaluateBinary, Undefined, onBits, refuses_iff, quotient]
    congr
  | rem =>
    have remainder : w.toSigned (x.toInt.tmod y.toInt) = (x.srem y).toInt := by
      rw [← BitVec.toInt_srem, Width.toSigned_toInt]
    simp only [evaluateBinary, Undefined, onBits, refuses_iff, remainder]
    congr
  | divUn =>
    have quotient : w.toSigned ((x.toNat : Int) / y.toNat) = (x.udiv y).toInt := by
      rw [BitVec.udiv_eq, BitVec.udiv_def, ← Width.toSigned_natCast, Int.natCast_div]
    simp only [evaluateBinary, Undefined, onBits, Width.toUnsigned_toInt, toNat_beq_zero, quotient]
    congr
  | remUn =>
    have remainder : w.toSigned ((x.toNat : Int) % y.toNat) = (x.umod y).toInt := by
      rw [BitVec.umod_eq, BitVec.umod_def, ← Width.toSigned_natCast, Int.natCast_emod]
    simp only [evaluateBinary, Undefined, onBits, Width.toUnsigned_toInt, toNat_beq_zero, remainder]
    congr
  | shl =>
    simp only [evaluateBinary, Undefined, onBits, shift_eq (toSigned_shiftLeft x) y]
    congr
  | shr =>
    simp only [evaluateBinary, Undefined, onBits, shift_eq (toInt_div_twoTo x) y]
    congr
  | shrUn =>
    simp only [evaluateBinary, Undefined, onBits, Width.toUnsigned_toInt,
      shift_eq (toSigned_ushiftRight x) y]
    congr
  | neg | not => cases binary
  | addOvf | subOvf | mulOvf => cases unchecked

/-- No operation on one number lacks a result. -/
theorem not_undefined_one (op : ArithOp) (bits : Nat) (a : Int) : ¬ op.Undefined bits [a] := id

/-- The result of an operation, for as many operands as it takes. -/
theorem evaluate_cut {op : ArithOp} (unchecked : op.checked = false) (w : Width) {operands : List Int}
    (enough : operands.length = op.arity) :
    op.evaluate (operands.map .int) w .wrap =
      .ok (if op.Undefined w.bits (operands.map w.toSigned) then none
        else some (op.onBits (operands.map w.cut)).toInt) := by
  obtain one | two : op.arity = 1 ∨ op.arity = 2 := by cases op <;> decide
  · obtain ⟨a, rfl⟩ := List.length_eq_one_iff.1 (enough.trans one)
    simpa [evaluate, one, not_undefined_one, Value.integer?, Width.toSigned_eq] using
      evaluateUnary_wrap one (w.cut a)
  · obtain ⟨a, b, rfl⟩ := List.length_eq_two.1 (enough.trans two)
    simpa [evaluate, two, Value.integer?, Width.toSigned_eq] using
      evaluateBinary_wrap two unchecked (w.cut a) (w.cut b)

/-- Wrapping evaluation is evaluation on bit vectors: the result is that of the operation on
    the operands cut to bit vectors, read as a signed number, and there is none just where the
    operation on the cut operands has none. So a result is always a signed number of the width,
    and operands with the same low bits have the same result. -/
theorem evaluate_wrap (op : ArithOp) (w : Width) (operands : List Int)
    (unchecked : op.checked = false) (enough : operands.length = op.arity) :
    op.evaluate (operands.map .int) w .wrap =
        .ok (if op.Undefined w.bits (operands.map w.toSigned) then none
          else some (op.onBits (operands.map w.cut)).toInt) ∧
      (∀ r, op.evaluate (operands.map .int) w .wrap = .ok (some r) →
        -2 ^ (w.bits - 1) ≤ r ∧ r < 2 ^ (w.bits - 1)) ∧
      ∀ others, List.Forall₂ (fun a b => a ≡ b [ZMOD 2 ^ w.bits]) operands others →
        op.evaluate (others.map .int) w .wrap = op.evaluate (operands.map .int) w .wrap := by
  have result := evaluate_cut unchecked w enough
  refine ⟨result, fun r found => ?_, fun others same => ?_⟩
  · rw [result] at found
    split at found
    · cases found
    · cases found
      exact ⟨BitVec.le_toInt _, BitVec.toInt_lt⟩
  · rw [result, evaluate_cut unchecked w (same.length_eq ▸ enough), w.map_toSigned, w.map_toSigned,
      Width.map_cut_eq same]

/-- Arithmetic shifting of operands that are cut first: minus two and one. -/
theorem evaluate_wrap_shift :
    ArithOp.checked .shr = false ∧ [(510 : Int), 257].length = ArithOp.arity .shr ∧
      ArithOp.evaluate .shr ([510, 257].map .int) .one .wrap = .ok (some (-1)) := by
  have evaluated := evaluate_wrap .shr .one [510, 257] (by decide) (by decide)
  refine ⟨by decide, by decide, evaluated.1.trans ?_⟩
  decide +kernel

/-! ## Results that have to fit -/

/-- The exact result of the operations that can be made to refuse a result. -/
def ideal? (op : ArithOp) : List Int → Option Int
  | [a] =>
    match op with
    | .neg => some (-a)
    | _ => none
  | [a, b] =>
    match op with
    | .add | .addOvf => some (a + b)
    | .sub | .subOvf => some (a - b)
    | .mul | .mulOvf => some (a * b)
    | _ => none
  | _ => none

theorem settle_of_mustFit (op : ArithOp) (w : Width) (exact : Int) :
    op.settle w true exact =
      if w.fits exact then .ok (some exact) else .error { op, bits := w.bits, exact } := by
  by_cases fit : w.fits exact = true
  · simp [settle, fit, Width.toSigned_of_fits fit]
  · simp [settle, fit]

/-- An operand that is a number of the width is not changed by the cutting. -/
theorem evaluate_one (op : ArithOp) (unary : op.arity = 1) {a : Int} (fit : w.fits a = true)
    (policy : OverflowPolicy) : op.evaluate [.int a] w policy = op.evaluateUnary w policy a := by
  simp [evaluate, unary, Value.integer?, Width.toSigned_of_fits fit]

theorem evaluate_two (op : ArithOp) (binary : op.arity = 2) {a b : Int} (deeper : w.fits a = true)
    (upper : w.fits b = true) (policy : OverflowPolicy) :
    op.evaluate [.int a, .int b] w policy = op.evaluateBinary w policy a b := by
  simp [evaluate, binary, Value.integer?, Width.toSigned_of_fits deeper,
    Width.toSigned_of_fits upper]

/-- A result that has to fit is the exact one, and it is refused where that is not a number of
    the width. So no result is ever another number than the exact one. -/
theorem evaluate_exact {op : ArithOp} {policy : OverflowPolicy} {operands : List Int} {exact : Int}
    (known : op.ideal? operands = some exact) (mustFit : (op.checked || policy == .trap) = true)
    (fit : ∀ n ∈ operands, w.fits n = true) :
    op.evaluate (operands.map .int) w policy =
      if w.fits exact then .ok (some exact) else .error { op, bits := w.bits, exact } := by
  rw [← settle_of_mustFit, ← mustFit]
  match operands, known with
  | [a], known =>
    have evaluated (unary) := op.evaluate_one unary (fit a (by simp)) policy
    cases op <;> cases known
    exact evaluated rfl
  | [a, b], known =>
    have evaluated (binary) := op.evaluate_two binary (fit a (by simp)) (fit b (by simp)) policy
    cases op <;> cases known <;> exact evaluated rfl

/-- A shift to the left does not look at the policy. -/
theorem evaluate_shl_policy (operands : List Value) (w : Width) (policy : OverflowPolicy) :
    evaluate .shl operands w policy = evaluate .shl operands w .wrap := rfl

/-- A shift to the left by a count within the width wraps under either policy. -/
theorem evaluate_shl (w : Width) (policy : OverflowPolicy) {a : Int} {count : Nat}
    (fit : w.fits a = true) (low : count < w.bits) :
    evaluate .shl [.int a, .int count] w policy = .ok (some (w.toSigned (a * 2 ^ count))) := by
  have small : w.fits count = true := by
    cases w <;> simp [Width.fits, Width.bits, Width.bytes, Number.twoTo] at low ⊢ <;> omega
  rw [evaluate_two _ rfl fit small]
  simp [evaluateBinary, Number.twoTo, Nat.not_le.2 low]

/-- So under either policy the result of a shift to the left is not the exact one as soon as
    that is not a number of the width. -/
theorem evaluate_shl_exact_iff (w : Width) (policy : OverflowPolicy) {a : Int} {count : Nat}
    (fit : w.fits a = true) (low : count < w.bits) :
    evaluate .shl [.int a, .int count] w policy = .ok (some (a * 2 ^ count)) ↔
      w.fits (a * 2 ^ count) = true := by
  rw [evaluate_shl w policy fit low, ← Width.toSigned_eq_self_iff]
  simp

end ArithOp

end Untangle
