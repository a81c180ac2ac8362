/-
  Untangle.Arith.Width

  The widths of the machine's integers, and how an exact number is read at a width:
  as the signed or unsigned number that has the same low bits.
-/
import Untangle.Value.Order

namespace Untangle

/-- A width of one, two, four or eight bytes. -/
inductive Width where
  | one | two | four | eight
  deriving Repr, DecidableEq

namespace Width

/-- All widths, in rising order. -/
def all : List Width := [.one, .two, .four, .eight]

/-- The width in bytes. -/
def bytes : Width → Nat
  | .one => 1
  | .two => 2
  | .four => 4
  | .eight => 8

/-- The width in bits. -/
def bits (w : Width) : Nat := 8 * w.bytes

/-- How many numbers a width has room for. -/
def size (w : Width) : Nat := Number.twoTo w.bits

/-- The unsigned number with the same low bits. -/
def toUnsigned (w : Width) (n : Int) : Int := n % w.size

/-- The signed number with the same low bits. -/
def toSigned (w : Width) (n : Int) : Int := Int.bmod n w.size

/-- Whether a number is a signed number of the width. -/
def fits (w : Width) (n : Int) : Bool :=
  -(Number.twoTo (w.bits - 1) : Int) ≤ n && n < Number.twoTo (w.bits - 1)

/-- The width of a number of bytes. -/
def ofBytes? (n : Int) : Option Width :=
  all.find? fun w => (w.bytes : Int) == n

/-- The width that a value names by its bytes. -/
def ofValue (v : Value) : Except Misuse Width := do
  match (← v.asKey).wholeNumber?.bind ofBytes? with
  | some w => return w
  | none => throw .noSuchKey

/-- Whether a value is a number between the least and the greatest of the width. -/
def fitsValue (w : Width) (v : Value) : Except Misuse Bool := do
  let bound : Int := Number.twoTo (w.bits - 1)
  let low ← v.compareWhole (-bound)
  let high ← v.compareWhole bound
  return (low == some .gt || low == some .eq) && high == some .lt

end Width

/-- A width as a machine is given it. -/
inductive GivenWidth where
  | whole (w : Width)
  /-- The bytes are given as a double. Then the bits are a double too, and nothing can be
      shifted by them. -/
  | fractional (w : Width)
  /-- There is no such width; this goes wrong when it is used. -/
  | unusable (m : Misuse)
  deriving Repr, DecidableEq

/-- The width that a value gives by its bytes. -/
def GivenWidth.ofValue (v : Value) : GivenWidth :=
  match v.wholeNumber?.bind Width.ofBytes?, v with
  | some w, .float _ => .fractional w
  | some w, _ => .whole w
  | none, .null | none, .list _ | none, .tuple _ | none, .dict _ => .unusable .notANumber
  | none, _ => .unusable .noSuchKey

end Untangle
