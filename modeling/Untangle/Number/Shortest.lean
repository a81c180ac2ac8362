/-
  Untangle.Number.Shortest

  The decimal text of a double: the fewest significant digits that read back as the
  same double, and of these the nearest to it.

  For each count of digits the two neighbours of the double on that decimal grid are
  compared, in exact arithmetic, with the interval of numbers that round to it.
-/
import Untangle.Number.Binary

namespace Untangle.Number

/-- A positive decimal number `digits * 10 ^ power`. -/
structure Decimal where
  digits : Nat
  power : Int
  deriving Repr, DecidableEq

/-- The exponent of the leading decimal digit of `num / den`. -/
def leadingPower (num den : Nat) : Int :=
  if den ≤ num then (Nat.toDigits 10 (num / den)).length - 1
  else
    let j := (Nat.toDigits 10 (den / num)).length - 1
    if den ≤ num * tenTo j then -(j : Int) else -(j + 1 : Int)

/-- The numbers that round to a double, as fractions over a common denominator: lower
    end, the double, upper end, and whether the ends belong to them. -/
structure RoundingInterval where
  low : Nat
  value : Nat
  high : Nat
  den : Nat
  closed : Bool

/-- The interval of the double `m * 2 ^ e`. Its lower half is shorter where the
    spacing of the doubles changes. -/
def RoundingInterval.of (m : Nat) (e : Int) : RoundingInterval :=
  let step : Nat := if m == twoTo 52 && e != -1074 then 1 else 2
  let scale : Nat := if 2 ≤ e then twoTo (e - 2).toNat else 1
  let den : Nat := if 2 ≤ e then 1 else twoTo (2 - e).toNat
  ⟨(4 * m - step) * scale, 4 * m * scale, (4 * m + 2) * scale, den, m % 2 == 0⟩

/-- The nearest number with `count` digits inside the interval, if there is one. -/
def RoundingInterval.onGrid? (i : RoundingInterval) (count : Nat) : Option Decimal :=
  let power : Int := leadingPower i.value i.den - (count - 1)
  -- all three numbers counted in units of the grid, over one denominator
  let up : Nat := if 0 ≤ power then 1 else tenTo (-power).toNat
  let unit : Nat := i.den * (if 0 ≤ power then tenTo power.toNat else 1)
  let below := i.value * up / unit
  let inside (d : Nat) : Bool :=
    if i.closed then i.low * up ≤ d * unit && d * unit ≤ i.high * up
    else i.low * up < d * unit && d * unit < i.high * up
  let missBelow := i.value * up - below * unit
  let missAbove := (below + 1) * unit - i.value * up
  let nearest :=
    if missBelow < missAbove || (missBelow == missAbove && below % 2 == 0) then below else below + 1
  let other := if nearest == below then below + 1 else below
  if inside nearest then some ⟨nearest, power⟩
  else if inside other then some ⟨other, power⟩
  else none

/-- The shortest decimal in the interval. Seventeen digits always suffice. -/
def RoundingInterval.shortest (i : RoundingInterval) : Decimal :=
  ((List.range' 1 17).findSome? i.onGrid?).getD ⟨i.value / i.den, 0⟩

/-- The digits of a decimal without the zeros at its end, and the exponent of the
    first of them. -/
def Decimal.scientific (d : Decimal) : List Char × Int :=
  let all := Nat.toDigits 10 d.digits
  let kept := (all.reverse.dropWhile (· == '0')).reverse
  (kept, d.power + all.length - 1)

/-- How a decimal is laid out. -/
structure Layout where
  /-- The exponents of the leading digit for which the number is written in full. -/
  fullFrom : Int
  fullTo : Int
  /-- What follows a whole number that is written in full. -/
  wholeEnding : String
  /-- The least number of digits of an exponent. -/
  exponentDigits : Nat
  infinity : String
  notANumber : String

/-- Numbers from 0.0001 to below 10^16 are written in full, with a point always; an
    exponent has a sign and at least two digits. -/
def Layout.plain : Layout := ⟨-4, 15, ".0", 2, "inf", "nan"⟩

/-- The layout of documents, where doubles without digits have a name. -/
def Layout.document : Layout :=
  { Layout.plain with infinity := "Infinity", notANumber := "NaN" }

/-- The exponent part of a number in scientific notation. -/
def Layout.exponent (l : Layout) (e : Int) : String :=
  let size := toString e.natAbs
  let zeros := String.ofList (List.replicate (l.exponentDigits - size.length) '0')
  (if e < 0 then "e-" else "e+") ++ zeros ++ size

/-- Lays out the digits of a positive number whose first digit stands at `e`. -/
def Layout.positive (l : Layout) (digits : List Char) (e : Int) : String :=
  let count : Int := digits.length
  if l.fullFrom ≤ e && e ≤ l.fullTo then
    if e < 0 then "0." ++ String.ofList (List.replicate (-e - 1).toNat '0' ++ digits)
    else if count ≤ e + 1 then
      String.ofList (digits ++ List.replicate (e + 1 - count).toNat '0') ++ l.wholeEnding
    else
      let n := (e + 1).toNat
      String.ofList (digits.take n) ++ "." ++ String.ofList (digits.drop n)
  else
    match digits with
    | [] => ""
    | [d] => String.ofList [d] ++ l.exponent e
    | d :: more => String.ofList (d :: '.' :: more) ++ l.exponent e

/-- The text of a double in a layout. -/
def Layout.text (l : Layout) (x : Float) : String :=
  match Binary.ofFloat x with
  | .nan => l.notANumber
  | .infinite negative => (if negative then "-" else "") ++ l.infinity
  | .finite negative m e =>
    (if negative then "-" else "") ++
      (if m == 0 then "0" ++ l.wholeEnding
       else
        let (digits, first) := (RoundingInterval.of m e).shortest.scientific
        l.positive digits first)

/-- The plain text of a double. -/
def floatText (x : Float) : String :=
  Layout.plain.text x

end Untangle.Number
