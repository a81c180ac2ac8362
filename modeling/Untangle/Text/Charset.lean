/-
  Untangle.Text.Charset

  Sets of characters given by ranges of code points, for the properties that a
  standard lists rather than defines.
-/

namespace Untangle.Text

/-- A set of characters, as closed ranges of code points. -/
structure Charset where
  ranges : List (Nat × Nat)

/-- Whether a character lies in one of the ranges. -/
def Charset.contains (s : Charset) (c : Char) : Bool :=
  s.ranges.any fun (lo, hi) => lo ≤ c.toNat && c.toNat ≤ hi

end Untangle.Text
