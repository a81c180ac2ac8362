/-
  Untangle.Number.Read

  Numbers as people write them: whole numbers and decimal fractions with an optional
  sign, digits of any script, single low lines between digits, and blanks around.
-/
import Untangle.Text.Blank
import Untangle.Text.Digit

namespace Untangle.Number

open Untangle.Text

/-- A sign and what follows it. -/
def splitSign : List Char → Bool × List Char
  | '-' :: rest => (true, rest)
  | '+' :: rest => (false, rest)
  | cs => (false, cs)

/-- The digit values of a word of decimal digits, with single low lines allowed
    between them. -/
def digitWord? : List Char → Option (List Nat)
  | [] => none
  | [c] => (digitValue? c).map ([·])
  | c :: '_' :: rest => do
    let d ← digitValue? c
    return d :: (← digitWord? rest)
  | c :: rest => do
    let d ← digitValue? c
    return d :: (← digitWord? rest)

/-- The whole number that a text spells in base ten. -/
def wholeNumber? (s : String) : Option Int :=
  let (negative, cs) := splitSign (trimChars s.toList)
  (digitWord? cs).map fun digits =>
    let n : Int := numberOf digits
    if negative then -n else n

/-- The double nearest to `n * 10 ^ power`. -/
def scaled (n : Nat) (power : Int) : Float :=
  let size : Int := (Nat.toDigits 10 n).length
  if n == 0 then 0.0
  else if 400 < size + power then 1.0 / 0.0
  else if size + power < -400 then 0.0
  else if 0 ≤ power then Float.ofScientific n false power.toNat
  else Float.ofScientific n true (-power).toNat

/-- The exponent after the letter `e`. -/
def exponent? (cs : List Char) : Option Int :=
  let (negative, digits) := splitSign cs
  (digitWord? digits).map fun ds => if negative then -(numberOf ds : Int) else numberOf ds

/-- A possibly empty word of digits. -/
def digitsOrNone? (cs : List Char) : Option (List Nat) :=
  if cs.isEmpty then some [] else digitWord? cs

/-- The unsigned decimal fraction that the characters spell: digits before or after a
    point (or both), and an exponent. -/
def fraction? (cs : List Char) : Option Float := do
  let isMark (c : Char) : Bool := c == 'e' || c == 'E'
  let body := cs.takeWhile (!isMark ·)
  let power ← match cs.dropWhile (!isMark ·) with
    | [] => some 0
    | _ :: rest => exponent? rest
  let whole ← digitsOrNone? (body.takeWhile (· != '.'))
  let part ← digitsOrNone? ((body.dropWhile (· != '.')).drop 1)
  if whole.isEmpty && part.isEmpty then none
  else some (scaled (numberOf (whole ++ part)) (power - part.length))

/-- The double that a text spells, rounded to nearest. Infinity and the value that is
    not a number have names, in any case of letters. -/
def float? (s : String) : Option Float :=
  let (negative, cs) := splitSign (trimChars s.toList)
  let size :=
    match String.ofList (cs.map Char.toLower) with
    | "inf" | "infinity" => some (1.0 / 0.0)
    | "nan" => some (0.0 / 0.0)
    | _ => fraction? cs
  size.map fun x => if negative then -x else x

end Untangle.Number
