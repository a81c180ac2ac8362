/-
  Untangle.Abstract.Stack

  Abstract values and stacks. An abstract value is a known constant or unknown. An
  abstract stack knows the values at its top; whether there are more below it is known
  too, or not.
-/
import Untangle.Value.Basic

namespace Untangle

/-- What is known about a value on the stack. -/
inductive AbstractValue where
  | known (v : Value)
  | unknown
  deriving Inhabited

namespace AbstractValue

/-- What holds on both of two paths: a constant only if both have one of the same kind
    and value. -/
def join : AbstractValue → AbstractValue → AbstractValue
  | .known a, .known b => if a.sameKind b && a.equal b then .known a else .unknown
  | _, _ => .unknown

/-- Whether the same is known. -/
def same : AbstractValue → AbstractValue → Bool
  | .known a, .known b => a == b
  | .unknown, .unknown => true
  | _, _ => false

/-- The constant, if it is known. -/
def constant? : AbstractValue → Option Value
  | .known v => some v
  | .unknown => none

/-- The integer, if it is known to be one. -/
def integer? (a : AbstractValue) : Option Int :=
  a.constant?.bind Value.integer?

end AbstractValue

/-- What is known about a stack: the values at its top, the topmost first, and whether
    they are all there is. -/
structure AbstractStack where
  values : List AbstractValue := []
  depthKnown : Bool := true
  deriving Inhabited

namespace AbstractStack

/-- The stack that is known to be empty. -/
def empty : AbstractStack := ⟨[], true⟩

/-- The stack of which nothing is known. -/
def unknown : AbstractStack := ⟨[], false⟩

/-- The number of values on the stack, if it is known. -/
def depth? (s : AbstractStack) : Option Nat :=
  if s.depthKnown then some s.values.length else none

/-- The stack with one more value. -/
def push (s : AbstractStack) (v : AbstractValue) : AbstractStack :=
  { s with values := v :: s.values }

/-- The stack with more values of which nothing is known. -/
def pushUnknown (s : AbstractStack) (count : Nat) : AbstractStack :=
  { s with values := List.replicate count .unknown ++ s.values }

/-- The value at the top, and the stack below it. Below the values that are known
    anything can be; and when nothing should be there, the depth is not what it was
    thought to be. -/
def pop (s : AbstractStack) : AbstractValue × AbstractStack :=
  match s.values with
  | v :: rest => (v, { s with values := rest })
  | [] => (.unknown, unknown)

/-- The values at the top, the deepest first, and the stack below them. -/
def popMany : Nat → AbstractStack → List AbstractValue × AbstractStack
  | 0, s => ([], s)
  | n + 1, s =>
    let (v, s) := s.pop
    let (vs, s) := popMany n s
    (vs ++ [v], s)

/-- What holds of the stack on both of two paths. -/
def join (a b : AbstractStack) : AbstractStack :=
  if a.depthKnown && b.depthKnown && a.values.length == b.values.length then
    ⟨List.zipWith AbstractValue.join a.values b.values, true⟩
  else unknown

/-- Whether the same is known of the values of two lists. -/
def sameValues : List AbstractValue → List AbstractValue → Bool
  | [], [] => true
  | a :: as, b :: bs => a.same b && sameValues as bs
  | _, _ => false

/-- Whether the same is known of two stacks. -/
def same (a b : AbstractStack) : Bool :=
  a.depthKnown == b.depthKnown && sameValues a.values b.values

end AbstractStack

end Untangle
