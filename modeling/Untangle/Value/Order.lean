/-
  Untangle.Value.Order

  The order of values: numbers by their exact value, texts by code points. Values of
  different kinds have no order.
-/
import Untangle.Value.Display

namespace Untangle.Value

/-- How a value compares with a whole number; what is not a number compares with
    none. -/
def compareWhole (v : Value) (n : Int) : Except Misuse (Option Ordering) :=
  match v with
  | .bool _ | .int _ => .ok (v.asInt?.map fun m => compare m n)
  | .float x =>
    match Number.Binary.ofFloat x with
    | .infinite negative => .ok (some (if negative then .lt else .gt))
    | b => .ok (b.fraction?.map fun (num, den) => compare num (n * den))
  | .notANumber _ => .ok none
  | _ => .error .notComparable

/-- Whether a value is less than a whole number. -/
def isBelow (v : Value) (n : Int) : Except Misuse Bool := do
  return (← v.compareWhole n) == some .lt

/-- Whether a value is greater than a whole number. -/
def isAbove (v : Value) (n : Int) : Except Misuse Bool := do
  return (← v.compareWhole n) == some .gt

/-- How two numbers compare; a value that is not a number compares with none. -/
def compareNumbers (a b : Value) : Option Ordering :=
  match a, b with
  | .float x, .float y =>
    if x < y then some .lt else if y < x then some .gt else some .eq
  | a, b =>
    match a.asInt?, b.asInt? with
    | some m, _ => ((b.compareWhole m).toOption.bind id).map Ordering.swap
    | none, some n => (a.compareWhole n).toOption.bind id
    | none, none => none

/-- Whether a value is a number: whole or a double, or a truth value. -/
def isNumber : Value → Bool
  | .bool _ | .int _ | .float _ | .notANumber _ => true
  | _ => false

/-- Whether a value is a text. -/
def isText : Value → Bool
  | .str _ => true
  | _ => false

/-- Values in rising order, if they have one: all numbers, all texts, or a single
    value. -/
def sorted (values : List Value) : Except Misuse (List Value) :=
  if values.length ≤ 1 then .ok values
  else if values.all isNumber then
    .ok (values.mergeSort fun a b => compareNumbers b a != some .lt)
  else if values.all isText then .ok (values.mergeSort fun a b => a.display ≤ b.display)
  else .error .notComparable

end Untangle.Value
