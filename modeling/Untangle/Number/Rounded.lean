/-
  Untangle.Number.Rounded

  The text of a number with a given count of digits, rounded to nearest in exact
  arithmetic; of two nearest the even one is taken.
-/
import Untangle.Number.Shortest

namespace Untangle.Number

/-- The whole number next to `num / den`; of two the even one. -/
def roundEven (num den : Nat) : Nat :=
  let below := num / den
  let twice := 2 * (num % den)
  if den < twice || (twice == den && below % 2 == 1) then below + 1 else below

/-- The digits with a point in front of the last `places` of them. -/
def withPoint (places : Nat) (keepPoint : Bool) (n : Nat) : String :=
  let digits := Nat.toDigits 10 n
  let all := List.replicate (places + 1 - digits.length) '0' ++ digits
  let whole := all.take (all.length - places)
  if places == 0 then String.ofList whole ++ (if keepPoint then "." else "")
  else String.ofList whole ++ "." ++ String.ofList (all.drop (all.length - places))

/-- The fraction `num / den` with `places` digits after the point. -/
def fixedText (places : Nat) (keepPoint : Bool) (num den : Nat) : String :=
  withPoint places keepPoint (roundEven (num * tenTo places) den)

/-- The significant digits of a fraction, one and `places` more, as a number, and the
    exponent of the first of them. -/
def significant (places : Nat) (num den : Nat) : Nat × Int :=
  if num == 0 then (0, 0)
  else
    let e := leadingPower num den
    let power := e - places
    let up : Nat := if 0 ≤ power then 1 else tenTo (-power).toNat
    let unit : Nat := den * (if 0 ≤ power then tenTo power.toNat else 1)
    let n := roundEven (num * up) unit
    if n == tenTo (places + 1) then (tenTo places, e + 1) else (n, e)

/-- A fraction in scientific notation with `places` digits after the point. -/
def scientificText (places : Nat) (keepPoint : Bool) (num den : Nat) : String :=
  let (n, e) := significant places num den
  withPoint places keepPoint n ++ Layout.plain.exponent e

/-- The text without the zeros that end its decimals, and without a point at its end. -/
def dropZeros (s : String) : String :=
  if s.toList.contains '.' then
    let kept := s.toList.reverse.dropWhile (· == '0')
    String.ofList (if kept.head? == some '.' then kept.tail else kept).reverse
  else s

/-- A fraction with `count` significant digits, in full where its exponent is from -4 to
    below the count, in scientific notation elsewhere. -/
def generalText (count : Nat) (keepZeros : Bool) (num den : Nat) : String :=
  let count := max count 1
  let (n, e) := significant (count - 1) num den
  let trim (s : String) := if keepZeros then s else dropZeros s
  if -4 ≤ e && e < count then
    trim (fixedText ((count : Int) - 1 - e).toNat keepZeros num den)
  else trim (withPoint (count - 1) keepZeros n) ++ Layout.plain.exponent e

end Untangle.Number
