/-
  Untangle.Text.Template

  Texts with slots for values. A slot starts with a percent sign: then come, each where
  wanted, the name of a value in brackets, flags, the least width, a point and a
  precision, and at the end the letter that says how the value is shown. Slots without a
  name take the values in order. Two percent signs stand for one.
-/
import Untangle.Number.Rounded
import Untangle.Value.Display
import Untangle.Value.Sum

namespace Untangle.Template

/-- A slot after its percent sign and the name of its value. -/
structure Slot where
  flags : List Char := []
  width : Nat := 0
  precision : Option Nat := none
  kind : Char := '%'

/-- Whether a slot has a flag. -/
def Slot.has (s : Slot) (flag : Char) : Bool := s.flags.contains flag

/-- The values that are left for the slots, and the table for slots with a name. -/
structure Supply where
  table : Option (List (String × Value)) := none
  waiting : List Value := []

/-- The values given for a template: one table by itself serves slots with names. -/
def Supply.of (values : List Value) : Supply :=
  match values with
  | [.dict (entry :: rest)] => ⟨some (entry :: rest), values⟩
  | _ => ⟨none, values⟩

/-- The next value. -/
def Supply.next (s : Supply) : Except Misuse (Value × Supply) :=
  match s.waiting with
  | v :: rest => .ok (v, { s with waiting := rest })
  | [] => .error .wrongFields

/-- The supply after a name has been read: the value of that name is all that waits
    then, for whatever wants a value next. -/
def Supply.named (s : Supply) (key : String) : Except Misuse Supply :=
  match s.table.bind fun table => table.lookup key with
  | some v => .ok { s with waiting := [v] }
  | none => .error .noSuchKey

/-! ## Showing a value -/

/-- The text in a field of the width of a slot. Numbers with the flag `0` are filled
    with zeros behind their sign. -/
def Slot.field (s : Slot) (sign body : String) (zeros : Bool) : String :=
  let missing := s.width - (sign.length + body.length)
  let fill (c : Char) := String.ofList (List.replicate missing c)
  if s.has '-' then sign ++ body ++ fill ' '
  else if zeros && s.has '0' then sign ++ fill '0' ++ body
  else fill ' ' ++ sign ++ body

/-- The sign of a number, as the flags of a slot want it. -/
def Slot.sign (s : Slot) (negative : Bool) : String :=
  if negative then "-" else if s.has '+' then "+" else if s.has ' ' then " " else ""

/-- A text, cut at the precision of a slot. -/
def Slot.showText (s : Slot) (text : String) : String :=
  let cut :=
    match s.precision with
    | some n => String.ofList (text.toList.take n)
    | none => text
  s.field "" cut false

/-- A whole number in a base. -/
def Slot.showWhole (s : Slot) (base : Nat) (mark : String) (n : Int) : String :=
  let digits := Nat.toDigits base n.natAbs
  let padded := List.replicate (s.precision.getD 1 - digits.length) '0' ++ digits
  let shown := if s.kind == 'X' then padded.map Char.toUpper else padded
  s.field (s.sign (n < 0) ++ (if s.has '#' then mark else "")) (String.ofList shown) true

/-- A double with the count of digits of a slot. -/
def Slot.showFloat (s : Slot) (x : Float) : String :=
  let digits := s.precision.getD 6
  let keep := s.has '#'
  let kind := s.kind.toLower
  let (negative, size) :=
    match Number.Binary.ofFloat x with
    | .nan => (false, "nan")
    | .infinite negative => (negative, "inf")
    | .finite negative m e =>
      let (num, den) := ((Number.Binary.finite false m e).fraction?).getD (0, 1)
      let num := num.natAbs
      (negative,
        if kind == 'f' then Number.fixedText digits keep num den
        else if kind == 'e' then Number.scientificText digits keep num den
        else Number.generalText digits keep num den)
  let size := if s.kind.isUpper then size.toUpper else size
  s.field (s.sign negative) size true

/-- The character that a slot for one character shows. -/
def characterOf (v : Value) : Except Misuse String :=
  match v with
  | .str s => if s.length == 1 then .ok s else .error .notANumber
  | v =>
    match v.asInt? with
    | some n =>
      if 0 ≤ n && n < 0x110000 then .ok (String.ofList [Char.ofNat n.toNat]) else .error .tooLarge
    | none => .error .notANumber

/-- The text with characters outside ASCII written by their code points. -/
def asciiText (s : String) : String :=
  let escape (c : Char) : List Char :=
    let n := c.toNat
    if n < 0x80 then [c]
    else if n < 0x100 then '\\' :: 'x' :: Text.hexDigits 2 n
    else if n < 0x10000 then '\\' :: 'u' :: Text.hexDigits 4 n
    else '\\' :: 'U' :: Text.hexDigits 8 n
  String.ofList (s.toList.flatMap escape)

/-- A value as a slot shows it. -/
def Slot.shown (s : Slot) (v : Value) : Except Misuse String :=
  match s.kind with
  | 's' => .ok (s.showText v.display)
  | 'r' => .ok (s.showText v.quoted)
  | 'a' => .ok (s.showText (asciiText v.quoted))
  | 'c' => (characterOf v).map fun text => s.field "" text false
  | 'd' | 'i' | 'u' => v.towardZero.map (s.showWhole 10 "")
  | 'x' | 'X' | 'o' =>
    match v.asInt? with
    | some n =>
      .ok (if s.kind == 'o' then s.showWhole 8 "0o" n
        else s.showWhole 16 (if s.kind == 'X' then "0X" else "0x") n)
    | none => .error .notANumber
  | 'f' | 'F' | 'e' | 'E' | 'g' | 'G' => v.asDouble.map s.showFloat
  | _ => .error .notAChoice

/-! ## Reading a slot -/

/-- The name of a value in brackets, up to the bracket that closes the first one. -/
def readKey (depth : Nat) (key : List Char) : List Char → Except Misuse (List Char × List Char)
  | [] => .error .badNumeral
  | '(' :: rest => readKey (depth + 1) ('(' :: key) rest
  | ')' :: rest =>
    match depth with
    | 0 => .ok (key.reverse, rest)
    | depth + 1 => readKey depth (')' :: key) rest
  | c :: rest => readKey depth (c :: key) rest

/-- Widths are below this bound. -/
def widthBound : Nat := Number.twoTo 63

/-- Precisions are below this bound. -/
def precisionBound : Nat := Number.twoTo 31

/-- A size in digits, or taken from the values where a star stands for it. Its amount has
    to be below a bound. -/
def readSize (bound : Nat) (supply : Supply) :
    List Char → Except Misuse (Option Int × List Char × Supply)
  | '*' :: rest => do
    let (v, supply) ← supply.next
    match v.asInt? with
    | some n => if n.natAbs < bound then return (some n, rest, supply) else throw .tooLarge
    | none => throw .notANumber
  | cs =>
    let digits := cs.takeWhile Char.isDigit
    let size : Nat := digits.foldl (fun (n : Nat) d => 10 * n + (d.toNat - 48)) 0
    if bound ≤ size then .error .badNumeral
    else .ok (if digits.isEmpty then none else some size, cs.dropWhile Char.isDigit, supply)

/-- Whether a character is a flag. -/
def isFlag (c : Char) : Bool := ['-', '+', ' ', '#', '0'].contains c

/-- The precision, if a point comes first. -/
def readPrecision (supply : Supply) : List Char →
    Except Misuse (Option Nat × List Char × Supply)
  | '.' :: rest => do
    let (size, rest, supply) ← readSize precisionBound supply rest
    return (some (size.getD 0).toNat, rest, supply)
  | cs => .ok (none, cs, supply)

/-- Reads a slot after its percent sign. -/
def readSlot (supply : Supply) (cs : List Char) : Except Misuse (Slot × List Char × Supply) := do
  let (cs, supply) ← match cs with
    | '(' :: rest => do
      if supply.table.isNone then throw .wrongFields
      let (key, rest) ← readKey 0 [] rest
      pure (rest, ← supply.named (String.ofList key))
    | cs => pure (cs, supply)
  let flags := cs.takeWhile isFlag
  let (width, cs, supply) ← readSize widthBound supply (cs.dropWhile isFlag)
  let flags := if (width.getD 0) < 0 then '-' :: flags else flags
  let (precision, cs, supply) ← readPrecision supply cs
  let cs :=
    match cs with
    | c :: rest => if ['h', 'l', 'L'].contains c then rest else cs
    | [] => []
  match cs with
  | [] => throw .badNumeral
  | kind :: rest =>
    return ({ flags, width := (width.getD 0).natAbs, precision, kind }, rest, supply)

/-! ## Filling -/

/-- Fills the slots of a template. Each step takes at least one character. -/
def fillFrom : Nat → Supply → List Char → Except Misuse (List Char)
  | 0, _, _ => .ok []
  | _, supply, [] =>
    if supply.table.isNone && !supply.waiting.isEmpty then .error .wrongFields else .ok []
  | steps + 1, supply, '%' :: '%' :: rest => do return '%' :: (← fillFrom steps supply rest)
  | steps + 1, supply, '%' :: rest => do
    let (slot, rest, supply) ← readSlot supply rest
    let (v, supply) ← supply.next
    let shown ← slot.shown v
    return shown.toList ++ (← fillFrom steps supply rest)
  | steps + 1, supply, c :: rest => do return c :: (← fillFrom steps supply rest)

/-- Fills the slots of a template with values. Without values it is taken as it is. -/
def fill (template : String) (values : List Value) : Except Misuse String :=
  if values.isEmpty then .ok template
  else
    let cs := template.toList
    (fillFrom (cs.length + 1) (Supply.of values) cs).map String.ofList

end Untangle.Template
