/-
  Untangle.Arith.Evaluate

  Evaluating an operation over known integers. The answer is the signed result at a
  width, nothing when the operation has no result at run time (division by zero, the
  least number by minus one, an oversized shift), or an overflow when the result has to
  fit and does not.
-/
import Untangle.Arith.Op
import Untangle.Arith.Width

namespace Untangle

/-- What to do with a sum, difference, product or negation that does not fit. -/
inductive OverflowPolicy where
  | wrap
  | trap
  deriving Repr, DecidableEq

/-- A result that had to fit and did not. -/
structure Overflow where
  op : ArithOp
  bits : Nat
  exact : Int
  /-- Whether the bits are given as a double. -/
  fractional : Bool := false
  deriving Repr, DecidableEq

/-- The message about an overflow. -/
def Overflow.message (o : Overflow) : String :=
  let bits := toString o.bits ++ if o.fractional then ".0" else ""
  o.op.name ++ " overflows " ++ bits ++ "-bit integer: " ++ toString o.exact

namespace ArithOp

/-- The signed form of an exact result, which has to fit when `mustFit` holds. -/
def settle (op : ArithOp) (w : Width) (mustFit : Bool) (exact : Int) :
    Except Overflow (Option Int) :=
  if mustFit && !w.fits exact then .error { op, bits := w.bits, exact } else .ok (some (w.toSigned exact))

/-- Applies a bitwise operation to the low bits of two numbers. -/
def bitwise (w : Width) (f : Nat → Nat → Nat) (a b : Int) : Int :=
  w.toSigned (f (w.toUnsigned a).toNat (w.toUnsigned b).toNat)

/-- Evaluates an operation on one signed number. -/
def evaluateUnary (op : ArithOp) (w : Width) (policy : OverflowPolicy) (a : Int) :
    Except Overflow (Option Int) :=
  match op with
  | .neg => settle op w (policy == .trap) (-a)
  | .not => .ok (some (w.toSigned (-a - 1)))
  | _ => .ok none

/-- Evaluates an operation on two signed numbers, the deeper one first. -/
def evaluateBinary (op : ArithOp) (w : Width) (policy : OverflowPolicy) (a b : Int) :
    Except Overflow (Option Int) :=
  let mustFit := op.checked || policy == .trap
  let least : Int := -(Number.twoTo (w.bits - 1))
  let undefined := b == 0 || (b == -1 && a == least)
  let ua := w.toUnsigned a
  let ub := w.toUnsigned b
  let oversized := b < 0 || (w.bits : Int) ≤ b
  match op with
  | .add | .addOvf => settle op w mustFit (a + b)
  | .sub | .subOvf => settle op w mustFit (a - b)
  | .mul | .mulOvf => settle op w mustFit (a * b)
  | .div => .ok (if undefined then none else some (w.toSigned (Int.tdiv a b)))
  | .rem => .ok (if undefined then none else some (w.toSigned (Int.tmod a b)))
  | .divUn => .ok (if ub == 0 then none else some (w.toSigned (ua / ub)))
  | .remUn => .ok (if ub == 0 then none else some (w.toSigned (ua % ub)))
  | .and => .ok (some (bitwise w (· &&& ·) a b))
  | .or => .ok (some (bitwise w (· ||| ·) a b))
  | .xor => .ok (some (bitwise w (· ^^^ ·) a b))
  | .shl => .ok (if oversized then none else some (w.toSigned (a * Number.twoTo b.toNat)))
  | .shr => .ok (if oversized then none else some (a / Number.twoTo b.toNat))
  | .shrUn => .ok (if oversized then none else some (w.toSigned (ua / Number.twoTo b.toNat)))
  | .neg | .not => .ok none

/-- Evaluates an operation on operands, the deepest first. There is a result only for
    the right number of operands that are all integers; each is first cut to the
    width. -/
def evaluate (op : ArithOp) (operands : List Value) (w : Width) (policy : OverflowPolicy) :
    Except Overflow (Option Int) :=
  match op.arity, operands.map Value.integer? with
  | 1, [some a] => op.evaluateUnary w policy (w.toSigned a)
  | 2, [some a, some b] => op.evaluateBinary w policy (w.toSigned a) (w.toSigned b)
  | _, _ => .ok none

/-- Whether an operation has to shift by all the bits of a width: division does, to know
    the least number, when it divides by minus one. -/
def shiftsByWidth (op : ArithOp) (w : Width) (operands : List Value) : Bool :=
  (op == .div || op == .rem) &&
    match operands.map Value.integer? with
    | [_, some b] => w.toSigned b == -1
    | _ => false

end ArithOp

/-- Why an operation has no result at a width as it is given. -/
inductive ArithFault where
  | overflow (o : Overflow)
  | misuse (m : Misuse)
  deriving Repr, DecidableEq

/-- Evaluates an operation at a width as it is given. The width is not looked at unless
    the operands are as the operation wants them. -/
def ArithOp.evaluateAt (op : ArithOp) (operands : List Value) (given : GivenWidth)
    (policy : OverflowPolicy) : Except ArithFault (Option Int) :=
  if operands.length != op.arity || operands.any (·.integer?.isNone) then .ok none
  else
    match given with
    | .whole w => (op.evaluate operands w policy).mapError .overflow
    | .fractional w =>
      if op.shiftsByWidth w operands then .error (.misuse .notANumber)
      else (op.evaluate operands w policy).mapError fun o =>
        .overflow { o with fractional := true }
    | .unusable m => .error (.misuse m)

end Untangle
