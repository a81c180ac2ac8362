/-
  Untangle.Number.Basic

  Powers of the two bases that numbers are written in, and sums of lists.
-/

namespace Untangle.Number

/-- A power of two. -/
def twoTo (n : Nat) : Nat := Nat.pow 2 n

/-- A power of ten. -/
def tenTo (n : Nat) : Nat := Nat.pow 10 n

/-- The sum of a list of whole numbers. -/
def total (ns : List Int) : Int := ns.foldr (fun n sum => n + sum) 0

/-- The sum of a list of sizes. -/
def totalSize (ns : List Nat) : Nat := ns.foldr (fun n sum => n + sum) 0

end Untangle.Number
