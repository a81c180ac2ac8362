/-
  Untangle.Listing.Literal

  Constants of a listing: a text between quotation marks, `null`, a whole number in
  decimal or hexadecimal, or a decimal fraction. A text has no escapes.
-/
import Untangle.Fault
import Untangle.Number.Read
import Untangle.Value.Display

namespace Untangle.Listing

open Untangle.Text

/-- A whole number after its sign, as the literal was recognised. -/
inductive Magnitude where
  | hex (digits : List Nat)
  | decimal (digits : List Nat)

/-- Recognises the hexadecimal form `0x…`, or a word of decimal digits of any script. -/
def magnitude? (cs : List Char) : Option Magnitude :=
  let hex? :=
    match cs with
    | '0' :: x :: rest =>
      if (x == 'x' || x == 'X') && !rest.isEmpty then rest.mapM Text.hexValue? else none
    | _ => none
  match hex? with
  | some digits => some (.hex digits)
  | none => if cs.isEmpty then none else (cs.mapM digitValue?).map .decimal

/-- The number that the digits spell. A decimal that is not zero has no zero in front. -/
def Magnitude.value : Magnitude → Except Misuse Nat
  | .hex digits => .ok (digits.foldl (fun n d => 16 * n + d) 0)
  | .decimal digits =>
    if digits.head? == some 0 && digits.any (· != 0) then .error .badNumeral
    else .ok (numberOf digits)

/-- Reads a literal. -/
def parseLiteral (text : String) : Except Fault Value := do
  let cs := trimChars text.toList
  let quoted :=
    match cs with
    | '"' :: rest => if rest.getLast? == some '"' then some rest.dropLast else none
    | _ => none
  match quoted with
  | some inner => return .str (String.ofList inner)
  | none =>
    let trimmed := String.ofList cs
    if trimmed == "null" then return .null
    let (negative, digits) := Number.splitSign cs
    match magnitude? digits with
    | some m =>
      match m.value with
      | .ok n => return .int (if negative then -(n : Int) else n)
      | .error e => throw (.misuse e)
    | none =>
      match Number.float? trimmed with
      | some x => return .ofFloat x
      | none => throw (.malformed none (.badLiteral trimmed))

/-- Writes a literal. -/
def literalText : Value → String
  | .str s => "\"" ++ s ++ "\""
  | .null => "null"
  | v => v.quoted

end Untangle.Listing
