/-
  Untangle.Value.Sum

  Sums of values that are numbers. A sum is whole as long as all its parts are.
-/
import Untangle.Number.Read
import Untangle.Value.Basic

namespace Untangle.Value

/-- The double that a number is. -/
def asDouble (v : Value) : Except Misuse Float :=
  match v with
  | .float x => .ok x
  | .notANumber _ => .ok (0.0 / 0.0)
  | v =>
    match v.asInt? with
    | some n =>
      let size := Number.scaled n.natAbs 0
      if size.isInf then .error .tooLarge else .ok (if n < 0 then -size else size)
    | none => .error .notANumber

/-- The sum of two numbers. -/
def plus (a b : Value) : Except Misuse Value :=
  match a.asInt?, b.asInt? with
  | some m, some n => .ok (.int (m + n))
  | _, _ => do return .ofFloat ((← a.asDouble) + (← b.asDouble))

/-- The sum of a list of numbers. -/
def total (values : List Value) : Except Misuse Value :=
  values.foldlM plus (.int 0)

end Untangle.Value
