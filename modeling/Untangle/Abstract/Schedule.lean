/-
  Untangle.Abstract.Schedule

  The order in which the fixed-point solver takes the successors of a block. They are kept
  as a set, so what order they come in is a matter of how sets are kept: usually in a hash
  table with open addressing, of which the places are read from first to last.

  A schedule is any way to order them. Nothing but the usual one depends on hash tables.
-/

namespace Untangle

/-- The order in which the successors of a block are taken, by the number of visits
    made before. None of them is left out. -/
structure Schedule where
  order : Nat → List Int → List Int
  full : ∀ n succs l, l ∈ order n succs ↔ l ∈ succs

/-! ## Hash tables -/

/-- The places of a hash table, each of them free or taken by a number. -/
abbrev Slots := List (Option Int)

namespace Slots

/-- A table with all places free. -/
def free (size : Nat) : Slots := List.replicate size none

/-- The numbers in a table, in the order of their places. -/
def taken (s : Slots) : List Int := s.filterMap id

/-- The hash of a number, as a word of 64 bits: the remainder by a prime, with the sign of
    the number. Minus one is no hash. -/
def hash (n : Int) : Nat :=
  let r := n.tmod (Nat.pow 2 61 - 1)
  ((if r == -1 then -2 else r) % Nat.pow 2 64).toNat

/-- How many places behind the first one are tried before the next jump. -/
def stretch : Nat := 9

/-- The places that are tried for a hash: a stretch if there is room for one, then a jump by
    what is left of the hash, and so on. -/
def places (size : Nat) : Nat → Nat → Nat → List Nat
  | 0, _, _ => []
  | rounds + 1, place, left =>
    let near := if place + stretch < size then List.range' place (stretch + 1) else [place]
    let left := left / 32
    near ++ places size rounds ((place * 5 + 1 + left) % size) left

/-- Puts a number into a table that has room for it. After thirteen jumps nothing is left of
    the hash, and as many more as there are places come to all of them. -/
def put (s : Slots) (n : Int) : Slots :=
  let tried := places s.length (s.length + 13) (hash n % s.length) (hash n)
  match tried.find? fun i => s[i]? == some none || s[i]? == some (some n) with
  | some i => s.set i (some n)
  | none => s ++ [some n]

/-- The size of a table for so many numbers: a power of two. -/
def sizeFor (used : Nat) : Nat :=
  Nat.pow 2 ((if 50000 < used then used * 2 else used * 4).log2 + 1)

/-- Adds a number to a table, and moves to a larger one when three fifths are taken. -/
def add (s : Slots) (n : Int) : Slots :=
  let s := s.put n
  let used := s.taken.length
  if used * 5 < (s.length - 1) * 3 then s else s.taken.foldl put (free (sizeFor used))

theorem mem_taken {s : Slots} {l : Int} : l ∈ s.taken ↔ some l ∈ s := by
  simp [taken]

theorem mem_taken_free (size : Nat) (l : Int) : l ∉ (free size).taken := by
  simp [mem_taken, free]

theorem mem_taken_put (s : Slots) (n l : Int) : l ∈ (s.put n).taken ↔ l = n ∨ l ∈ s.taken := by
  rw [mem_taken, mem_taken]
  unfold put
  dsimp only
  split
  · rename_i i hfind
    -- The place is free or has the number already, so no other number is lost.
    have hplace := List.find?_some hfind
    simp only [Bool.or_eq_true, beq_iff_eq] at hplace
    have hi : i < s.length := by
      by_cases hi : i < s.length
      · exact hi
      · rw [List.getElem?_eq_none (by omega)] at hplace
        simp at hplace
    constructor
    · intro hl
      rcases List.mem_or_eq_of_mem_set hl with hl | hl
      · exact Or.inr hl
      · exact Or.inl (Option.some.inj hl)
    · intro hl
      by_cases heq : l = n
      · exact heq ▸ List.mem_set hi (some n)
      · obtain ⟨j, hj⟩ := List.mem_iff_getElem?.mp (hl.resolve_left heq)
        refine List.mem_iff_getElem?.mpr ⟨j, ?_⟩
        rw [List.getElem?_set_ne, hj]
        intro hij
        rw [hij, hj] at hplace
        simp [heq] at hplace
  · simp [or_comm]

/-- Numbers that are added one after the other, in a way that adds each, are all there. -/
theorem mem_taken_foldl {add : Slots → Int → Slots}
    (hadd : ∀ s n l, l ∈ (add s n).taken ↔ l = n ∨ l ∈ s.taken) {numbers : List Int} {s : Slots}
    {l : Int} : l ∈ (numbers.foldl add s).taken ↔ l ∈ numbers ∨ l ∈ s.taken := by
  induction numbers generalizing s with
  | nil => simp
  | cons n numbers ih =>
    rw [List.foldl_cons, ih, hadd, List.mem_cons]
    exact or_left_comm.trans or_assoc.symm

theorem mem_taken_add (s : Slots) (n l : Int) : l ∈ (s.add n).taken ↔ l = n ∨ l ∈ s.taken := by
  unfold add
  dsimp only
  split
  · exact mem_taken_put s n l
  · rw [mem_taken_foldl mem_taken_put, or_iff_left (mem_taken_free _ l), mem_taken_put]

end Slots

namespace Schedule

/-- The successors as they come. -/
def plain : Schedule where
  order _ succs := succs
  full _ _ _ := Iff.rfl

/-- The successors in the order in which a hash table has them that they are added to one after
    the other. -/
def hashed : Schedule where
  order _ succs := (succs.foldl Slots.add (Slots.free 8)).taken
  full _ succs l := by
    rw [Slots.mem_taken_foldl Slots.mem_taken_add, or_iff_left (Slots.mem_taken_free 8 l)]

end Schedule

end Untangle
