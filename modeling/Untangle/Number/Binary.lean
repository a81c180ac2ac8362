/-
  Untangle.Number.Binary

  The exact value of a double: a sign and a whole number times a power of two.
-/
import Untangle.Number.Basic

namespace Untangle.Number

/-- What the bits of a double stand for. -/
inductive Binary
  | nan
  | infinite (negative : Bool)
  /-- The number `mantissa * 2 ^ exponent`, with its sign. -/
  | finite (negative : Bool) (mantissa : Nat) (exponent : Int)
  deriving Repr, DecidableEq

/-- Reads the sign, the biased exponent and the fraction of a double. -/
def Binary.ofFloat (x : Float) : Binary :=
  let bits : Nat := x.toBits.toNat
  let negative := bits / twoTo 63 == 1
  let biased : Nat := bits / twoTo 52 % twoTo 11
  let fraction : Nat := bits % twoTo 52
  if biased == 2047 then
    if fraction == 0 then .infinite negative else .nan
  else if biased == 0 then .finite negative fraction (-1074)
  else .finite negative (fraction + twoTo 52) ((biased : Int) - 1075)

/-- A finite double as a fraction: numerator and (positive) denominator. -/
def Binary.fraction? : Binary → Option (Int × Nat)
  | .finite negative m e =>
    let size : Nat := if 0 ≤ e then m * twoTo e.toNat else m
    let below : Nat := if 0 ≤ e then 1 else twoTo (-e).toNat
    some (if negative then -(size : Int) else size, below)
  | _ => none

/-- The whole number that a double is, if it is one. -/
def whole? (x : Float) : Option Int :=
  match (Binary.ofFloat x).fraction? with
  | some (num, den) => if num % den == 0 then some (num / den) else none
  | none => none

/-- The whole number next to a double on the side of zero, for a finite double. -/
def towardZero? (x : Float) : Option Int :=
  (Binary.ofFloat x).fraction?.map fun (num, den) => Int.tdiv num den

end Untangle.Number
