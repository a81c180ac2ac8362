/-
  Untangle.Registry.Lineage

  The order in which a member and its ancestors are asked for something. It has the
  member before its parents, and the parents in the order in which they are given; where
  the orders of the parents contradict each other there is none.
-/
import Untangle.Number.Basic

namespace Untangle.Lineage

/-- The first head of a list that stands further back in none of the lists. -/
def candidate? (orders : List (List Nat)) : Option Nat :=
  (orders.filterMap List.head?).find? fun n => orders.all fun order => !order.tail.contains n

/-- A list without a given head. -/
def behead (n : Nat) (order : List Nat) : List Nat :=
  if order.head? == some n then order.tail else order

/-- The lists without a given head. -/
def beheadAll (n : Nat) (orders : List (List Nat)) : List (List Nat) :=
  orders.map (behead n)

/-- The number of entries of all the lists. -/
def size (orders : List (List Nat)) : Nat :=
  Number.totalSize (orders.map List.length)

/-- Taking off a head makes no list longer. -/
theorem length_behead_le (n : Nat) (order : List Nat) :
    (behead n order).length ≤ order.length := by
  unfold behead
  split
  · simp
  · exact Nat.le_refl _

/-- Taking off a head that is there makes the list shorter. -/
theorem length_behead_lt {n : Nat} {order : List Nat} (h : order.head? = some n) :
    (behead n order).length < order.length := by
  cases order with
  | nil => simp at h
  | cons a rest => simp_all [behead]

/-- Taking off heads leaves no more entries. -/
theorem size_beheadAll_le (n : Nat) (orders : List (List Nat)) :
    size (beheadAll n orders) ≤ size orders := by
  induction orders with
  | nil => exact Nat.le_refl _
  | cons order rest ih =>
    have := length_behead_le n order
    simp only [beheadAll, size, List.map_cons, Number.totalSize, List.foldr_cons] at ih ⊢
    omega

/-- Taking off the heads that are a candidate leaves fewer entries. -/
theorem size_beheadAll_lt {n : Nat} {orders : List (List Nat)} (h : candidate? orders = some n) :
    size (beheadAll n orders) < size orders := by
  obtain ⟨order, hmem, hhead⟩ := List.mem_filterMap.mp (List.mem_of_find?_eq_some h)
  clear h
  induction orders with
  | nil => simp at hmem
  | cons first rest ih =>
    rcases List.mem_cons.mp hmem with rfl | hrest
    · have hlt := length_behead_lt hhead
      have hle := size_beheadAll_le n rest
      simp only [beheadAll, size, List.map_cons, Number.totalSize, List.foldr_cons] at hle ⊢
      omega
    · have hle := length_behead_le n first
      have hlt := ih hrest
      simp only [beheadAll, size, List.map_cons, Number.totalSize, List.foldr_cons] at hlt ⊢
      omega

/-- One order that agrees with all the given ones, if there is one. -/
def merge? (orders : List (List Nat)) : Option (List Nat) :=
  if orders.all List.isEmpty then some []
  else
    match _h : candidate? orders with
    | none => none
    | some n => (merge? (beheadAll n orders)).map (n :: ·)
  termination_by size orders
  decreasing_by exact size_beheadAll_lt _h

end Untangle.Lineage
