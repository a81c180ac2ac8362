/-
  Untangle.Value.Basic

  Values as documents hold them: the operands, names and settings of methods that come
  from outside are of no fixed kind. Equality of numbers is by value and not by kind,
  and true and false count as one and zero.
-/
import Untangle.Number.Binary

namespace Untangle

/-- A value of a document. A tuple is a list whose items are fixed; entries of a
    dictionary keep their order. -/
inductive Value where
  | null
  | bool (b : Bool)
  | int (n : Int)
  /-- A double that is a number or infinite. -/
  | float (x : Float)
  /-- A double that is not a number. It equals nothing; inside a collection it is found
      again by where it came from. -/
  | notANumber (origin : Nat)
  | str (s : String)
  | list (items : List Value)
  | tuple (items : List Value)
  | dict (entries : List (String × Value))
  deriving Inhabited

/-- Why a value cannot play the role that it was given. -/
inductive Misuse where
  /-- It is not a collection, or its items cannot be taken one by one. -/
  | notIterable
  /-- It may change, so it cannot be looked up. -/
  | notAKey
  /-- A text was needed. -/
  | notAText
  /-- A number was needed. -/
  | notANumber
  /-- It has no order with the value it was compared with. -/
  | notComparable
  /-- It has no such part. -/
  | noSuchPart
  /-- It has a field that the record does not have, or lacks one. -/
  | wrongFields
  /-- A text does not spell a number. -/
  | badNumeral
  /-- It has the wrong number of items. -/
  | wrongCount
  /-- It is not among the choices. -/
  | notAChoice
  /-- A number is too large for the conversion. -/
  | tooLarge
  /-- The table has no such key. -/
  | noSuchKey
  /-- The list has no such place. -/
  | noSuchPlace
  /-- None of the things that were gone through is the one wanted. -/
  | notFound
  deriving Repr, DecidableEq

namespace Value

/-- Whether a value counts as present: not null, false, zero or empty. -/
def truthy : Value → Bool
  | .null => false
  | .bool b => b
  | .int n => n != 0
  | .float x => x != 0.0
  | .notANumber _ => true
  | .str s => !s.isEmpty
  | .list items | .tuple items => !items.isEmpty
  | .dict entries => !entries.isEmpty

/-- A double as a value. -/
def ofFloat (x : Float) (origin : Nat := 0) : Value :=
  if x.isNaN then .notANumber origin else .float x

/-- The number that a truth value or a whole number is. -/
def asInt? : Value → Option Int
  | .bool b => some (if b then 1 else 0)
  | .int n => some n
  | _ => none

/-- The whole number that a value stands for in look-ups: fractions without a
    fractional part count. -/
def wholeNumber? : Value → Option Int
  | .float x => Number.whole? x
  | v => v.asInt?

/-- A whole number that is no truth value. -/
def integer? : Value → Option Int
  | .int n => some n
  | _ => none

/-- Whether two doubles that are not numbers are the same thing. -/
def sameThing : Value → Value → Bool
  | .notANumber i, .notANumber j => i == j
  | _, _ => false

mutual

/-- Equality of values. Items of collections are equal also when they are the same
    thing. -/
def equal : Value → Value → Bool
  | .null, .null => true
  | .str a, .str b => a == b
  | .list xs, .list ys => equalItems xs ys
  | .tuple xs, .tuple ys => equalItems xs ys
  | .dict xs, .dict ys => xs.length == ys.length && equalEntries xs ys
  | .float x, .float y => x == y
  | a, b =>
    match a.wholeNumber?, b.wholeNumber? with
    | some m, some n => m == n
    | _, _ => false

/-- Equality of lists, item by item. -/
def equalItems : List Value → List Value → Bool
  | [], [] => true
  | x :: xs, y :: ys => (sameThing x y || equal x y) && equalItems xs ys
  | _, _ => false

/-- Whether every entry is also in the other dictionary. -/
def equalEntries : List (String × Value) → List (String × Value) → Bool
  | [], _ => true
  | (k, v) :: rest, ys =>
    (match ys.lookup k with
      | some w => sameThing v w || equal v w
      | none => false) && equalEntries rest ys

end

/-- Whether two values are the same thing or equal, as collections compare their items
    and tables their keys. -/
def same (a b : Value) : Bool := sameThing a b || equal a b

instance : BEq Value := ⟨same⟩

mutual

/-- Whether a value can be looked up: lists and dictionaries cannot, nor can tuples
    that hold one. -/
def isKey : Value → Bool
  | .list _ | .dict _ => false
  | .tuple items => areKeys items
  | _ => true

/-- Whether all the values can be looked up. -/
def areKeys : List Value → Bool
  | [] => true
  | v :: rest => isKey v && areKeys rest

end

/-- The value, if it can be looked up. -/
def asKey (v : Value) : Except Misuse Value :=
  if v.isKey then .ok v else .error .notAKey

/-- Whether two values are of the same kind. -/
def sameKind : Value → Value → Bool
  | .null, .null | .bool _, .bool _ | .int _, .int _ | .str _, .str _ | .list _, .list _
  | .tuple _, .tuple _ | .dict _, .dict _ => true
  | .float _, .float _ | .float _, .notANumber _ => true
  | .notANumber _, .float _ | .notANumber _, .notANumber _ => true
  | _, _ => false

/-- The whole number that a number is cut to: its fractional part is dropped. -/
def towardZero (v : Value) : Except Misuse Int :=
  match v with
  | .float x =>
    match Number.towardZero? x with
    | some n => .ok n
    | none => .error .tooLarge
  | .notANumber _ => .error .badNumeral
  | v =>
    match v.asInt? with
    | some n => .ok n
    | none => .error .notANumber

/-- The entry of a dictionary under a key. -/
def get? (v : Value) (key : String) : Option Value :=
  match v with
  | .dict entries => entries.lookup key
  | _ => none

/-- The items of a collection: characters of a text, keys of a dictionary. -/
def items : Value → Except Misuse (List Value)
  | .list xs | .tuple xs => .ok xs
  | .str s => .ok (s.toList.map fun c => .str (String.ofList [c]))
  | .dict entries => .ok (entries.map fun (k, _) => .str k)
  | _ => .error .notIterable

end Value

end Untangle
