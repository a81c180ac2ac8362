/-
  Untangle.Json.Reader

  Reading a JSON document (RFC 8259) into a value. Whole numbers keep all their digits,
  other numbers are doubles; `NaN`, `Infinity` and `-Infinity` are read too. A name that
  is repeated in an object keeps its first place and its last value.
-/
import Untangle.Entries
import Untangle.Number.Read
import Untangle.Value.Basic

namespace Untangle.Json

/-- Blanks between tokens. -/
def isSpace (c : Char) : Bool :=
  c == ' ' || c == '\t' || c == '\n' || c == '\r'

/-- The rest of a document from its next token on. -/
def skipSpace (cs : List Char) : List Char :=
  cs.dropWhile isSpace

/-- The code unit that four hexadecimal digits spell. -/
def codeUnit? (a b c d : Char) : Option Nat := do
  return (← Text.hexValue? a) * 4096 + (← Text.hexValue? b) * 256 + (← Text.hexValue? c) * 16 + (← Text.hexValue? d)

/-- Whether a code unit is the first of a surrogate pair. -/
def isLeading (n : Nat) : Bool := 0xD800 ≤ n && n ≤ 0xDBFF

/-- Whether a code unit is the second of a surrogate pair. -/
def isTrailing (n : Nat) : Bool := 0xDC00 ≤ n && n ≤ 0xDFFF

/-- The character of a single code unit; a surrogate by itself stands for none and is
    replaced. -/
def unitChar (n : Nat) : Char :=
  if isLeading n || isTrailing n then Char.ofNat 0xFFFD else Char.ofNat n

/-- The character that a one-letter escape stands for. -/
def escaped? : Char → Option Char
  | '"' => some '"'
  | '\\' => some '\\'
  | '/' => some '/'
  | 'b' => some (Char.ofNat 8)
  | 'f' => some (Char.ofNat 12)
  | 'n' => some '\n'
  | 'r' => some '\r'
  | 't' => some '\t'
  | _ => none

/-- The characters of a string up to its closing quotation mark, after those already
    read (in reverse), and the rest of the document. -/
def stringFrom (done : List Char) : List Char → Option (List Char × List Char)
  | [] => none
  | '"' :: rest => some (done.reverse, rest)
  | '\\' :: 'u' :: a :: b :: c :: d :: rest =>
    match codeUnit? a b c d, rest with
    | none, _ => none
    | some hi, '\\' :: 'u' :: e :: f :: g :: h :: more =>
      match codeUnit? e f g h with
      | none => none
      | some lo =>
        if isLeading hi && isTrailing lo then
          stringFrom (Char.ofNat (0x10000 + (hi - 0xD800) * 1024 + (lo - 0xDC00)) :: done) more
        else stringFrom (unitChar hi :: done) ('\\' :: 'u' :: e :: f :: g :: h :: more)
    | some n, rest => stringFrom (unitChar n :: done) rest
  | '\\' :: e :: rest =>
    match escaped? e with
    | some c => stringFrom (c :: done) rest
    | none => none
  | c :: rest => if c.toNat < 0x20 then none else stringFrom (c :: done) rest
  termination_by cs => cs.length

/-- Whether a character is an ASCII digit. -/
def isDigit (c : Char) : Bool := c.isDigit

/-- The fraction at the front (a point and digits), if there is one. -/
def splitFraction (cs : List Char) : List Char × List Char :=
  match cs with
  | '.' :: rest =>
    let digits := rest.takeWhile isDigit
    if digits.isEmpty then ([], cs) else (digits, rest.dropWhile isDigit)
  | _ => ([], cs)

/-- The exponent at the front (a letter, a sign and digits), if there is one. -/
def splitExponent (cs : List Char) : Option Int × List Char :=
  match cs with
  | c :: rest =>
    if c == 'e' || c == 'E' then
      let (negative, more) := Number.splitSign rest
      let digits := more.takeWhile isDigit
      if digits.isEmpty then (none, cs)
      else
        let n : Int := Text.numberOf (digits.map fun d => d.toNat - 48)
        (some (if negative then -n else n), more.dropWhile isDigit)
    else (none, cs)
  | [] => (none, cs)

/-- The number at the front, after its sign. -/
def number? (negative : Bool) (cs : List Char) : Option (Value × List Char) :=
  let whole :=
    match cs with
    | '0' :: _ => ['0']
    | _ => cs.takeWhile isDigit
  if whole.isEmpty then none
  else
    let (part, rest) := splitFraction (cs.drop whole.length)
    let (power, rest) := splitExponent rest
    let n := Text.numberOf ((whole ++ part).map fun d => d.toNat - 48)
    if part.isEmpty && power.isNone then
      some (.int (if negative then -(n : Int) else n), rest)
    else
      let x := Number.scaled n (power.getD 0 - part.length)
      some (.float (if negative then -x else x), rest)

/-- What follows a word at the front. -/
def after? : List Char → List Char → Option (List Char)
  | [], cs => some cs
  | w :: word, c :: cs => if w == c then after? word cs else none
  | _ :: _, [] => none

/-- A named value as it is read with so many characters after it. Each that is not a number
    is a thing of its own. -/
def namedAt (left : Nat) : Value → Value
  | .notANumber _ => .notANumber left
  | v => v

/-- The named values. -/
def names : List (String × Value) :=
  [("null", .null), ("true", .bool true), ("false", .bool false),
   ("NaN", .notANumber 0), ("Infinity", .float (1.0 / 0.0)),
   ("-Infinity", .float (-1.0 / 0.0))]

mutual

/-- The value at the front of a document, with the nesting and length bounded. -/
def value? : Nat → List Char → Option (Value × List Char)
  | 0, _ => none
  | fuel + 1, cs =>
    match cs with
    | '"' :: rest => (stringFrom [] rest).map fun (s, rest) => (.str (String.ofList s), rest)
    | '[' :: rest =>
      match skipSpace rest with
      | ']' :: rest => some (.list [], rest)
      | rest => (items? fuel rest).map fun (vs, rest) => (.list vs, rest)
    | '\x7b' :: rest =>
      match skipSpace rest with
      | '\x7d' :: rest => some (.dict [], rest)
      | rest => (entries? fuel [] rest).map fun (es, rest) => (.dict es, rest)
    | _ =>
      match names.findSome? fun (name, v) => (after? name.toList cs).map fun rest => (v, rest) with
      | some (v, rest) => some (namedAt rest.length v, rest)
      | none =>
        match cs with
        | '-' :: rest => number? true rest
        | _ => number? false cs

/-- The items of an array up to its end. -/
def items? : Nat → List Char → Option (List Value × List Char)
  | 0, _ => none
  | fuel + 1, cs => do
    let (v, rest) ← value? fuel cs
    match skipSpace rest with
    | ',' :: rest =>
      let (vs, rest) ← items? fuel (skipSpace rest)
      return (v :: vs, rest)
    | ']' :: rest => return ([v], rest)
    | _ => none

/-- The entries of an object up to its end, after those already read. -/
def entries? : Nat → List (String × Value) → List Char → Option (List (String × Value) × List Char)
  | 0, _, _ => none
  | fuel + 1, done, cs => do
    let '"' :: rest := cs | none
    let (key, rest) ← stringFrom [] rest
    let ':' :: rest := skipSpace rest | none
    let (v, rest) ← value? fuel (skipSpace rest)
    let done := Entries.put (String.ofList key) v done
    match skipSpace rest with
    | ',' :: rest => entries? fuel done (skipSpace rest)
    | '\x7d' :: rest => return (done, rest)
    | _ => none

end

/-- Reads a whole document. Each step consumes a character, so twice its length bounds
    the steps. -/
def parse? (text : String) : Option Value :=
  let cs := skipSpace text.toList
  match value? (2 * cs.length + 2) cs with
  | some (v, rest) => if (skipSpace rest).isEmpty then some v else none
  | none => none

end Untangle.Json
