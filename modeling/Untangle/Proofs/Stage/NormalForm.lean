/-
  Untangle.Proofs.Stage.NormalForm

  Junk as a matter of rewriting. No-ops, and duplicates with the discard directly behind them,
  can be deleted one at a time in many orders. All orders come to the same code in the end, and
  that is what dropping the junk leaves (`Junk.inCode_normal`). What is kept is the invariant:
  a deletion changes nothing of it (`Deletes.kept`), and every code can be brought down to it
  (`deletes_kept`).
-/
import Mathlib.Data.List.Chain
import Mathlib.Logic.Relation
import Untangle.Proofs.Stage.Junk

namespace Untangle

namespace Junk

open Relation

/-- One no-op is deleted, or one duplicate with the discard directly behind it. -/
inductive Deletes : List Instruction → List Instruction → Prop where
  | nop (front back : List Instruction) {ins : Instruction} (hnop : ins.opcode = some .nop) :
      Deletes (front ++ ins :: back) (front ++ back)
  | pair (front back : List Instruction) {dup pop : Instruction} (hdup : dup.opcode = some .dup)
      (hpop : pop.opcode = some .pop) : Deletes (front ++ dup :: pop :: back) (front ++ back)

/-- There is nothing to delete. -/
structure Clean (code : List Instruction) : Prop where
  nops : ∀ ins ∈ code, ins.opcode ≠ some .nop
  pairs : code.IsChain fun a b => a.opcode = some .dup → b.opcode ≠ some .pop

variable {code code' : List Instruction}

/-! ## Deletions -/

theorem Deletes.append (h : Deletes code code') (more : List Instruction) :
    Deletes (code ++ more) (code' ++ more) := by
  cases h with
  | nop front back hnop =>
    rw [List.append_assoc, List.append_assoc]
    exact .nop front (back ++ more) hnop
  | pair front back hdup hpop =>
    rw [List.append_assoc, List.append_assoc]
    exact .pair front (back ++ more) hdup hpop

/-- Nothing can be deleted exactly where there is nothing to delete. -/
theorem clean_iff : Clean code ↔ ∀ next, ¬ Deletes code next := by
  constructor
  · rintro hclean next (⟨front, back, hnop⟩ | ⟨front, back, hdup, hpop⟩)
    · exact hclean.nops _ (List.mem_append_right _ List.mem_cons_self) hnop
    · have hback := (List.isChain_append.mp hclean.pairs).2.1
      exact (List.isChain_cons_cons.mp hback).1 hdup hpop
  · intro hnone
    refine ⟨fun ins hins hnop => ?_, List.isChain_iff_forall_rel_of_append_cons_cons.mpr
      fun front a b back hsplit hdup hpop => ?_⟩
    · obtain ⟨front, back, rfl⟩ := List.append_of_mem hins
      exact hnone _ (.nop front back hnop)
    · subst hsplit
      exact hnone _ (.pair _ _ hdup hpop)

/-! ## What is kept -/

theorem sift_append (code more : List Instruction) :
    sift (code ++ more) = more.foldl Sifted.take (sift code) :=
  List.foldl_append

/-- What is kept depends on what was kept before, and not on what was dropped. -/
theorem foldl_take_kept (code : List Instruction) {s t : Sifted} (h : s.kept = t.kept) :
    (code.foldl Sifted.take s).kept = (code.foldl Sifted.take t).kept := by
  induction code generalizing s t with
  | nil => exact h
  | cons ins code ih =>
    refine ih ?_
    unfold Sifted.take
    rw [h]
    split
    · rfl
    · split <;> rfl
    · rfl

theorem take_nop (s : Sifted) {ins : Instruction} (h : ins.opcode = some .nop) :
    (s.take ins).kept = s.kept := by
  unfold Sifted.take
  rw [h]

theorem take_dup_pop (s : Sifted) {dup pop : Instruction} (hdup : dup.opcode = some .dup)
    (hpop : pop.opcode = some .pop) : ((s.take dup).take pop).kept = s.kept := by
  have hkept : s.take dup = { s with kept := dup :: s.kept } := by
    unfold Sifted.take
    rw [hdup]
  rw [hkept]
  unfold Sifted.take
  rw [hpop]
  simp [hdup]

/-- A deletion changes nothing of what is kept. -/
theorem Deletes.kept (h : Deletes code code') : (sift code').kept = (sift code).kept := by
  cases h with
  | nop front back hnop =>
    rw [sift_append, sift_append, List.foldl_cons]
    exact foldl_take_kept back (take_nop _ hnop).symm
  | pair front back hdup hpop =>
    rw [sift_append, sift_append, List.foldl_cons, List.foldl_cons]
    exact foldl_take_kept back (take_dup_pop _ hdup hpop).symm

theorem kept_of_deletes (h : ReflTransGen Deletes code code') :
    (sift code').kept = (sift code).kept := by
  induction h with
  | refl => rfl
  | tail _ hstep ih => exact hstep.kept.trans ih

/-- Every code can be brought down to what is kept of it. -/
theorem deletes_kept (code : List Instruction) :
    ReflTransGen Deletes code (sift code).kept.reverse := by
  induction code using List.reverseRecOn with
  | nil => exact .refl
  | append_singleton code ins ih =>
    have hmore : ReflTransGen Deletes (code ++ [ins]) ((sift code).kept.reverse ++ [ins]) :=
      ih.lift (· ++ [ins]) fun _ _ hstep => hstep.append [ins]
    rw [sift_concat]
    rcases take_cases (sift code) ins with ⟨hnop, htake⟩ | ⟨hpop, dup, rest, hcons, hdup, htake⟩
      | ⟨-, -, htake⟩
    · rw [htake]
      have hlast := Deletes.nop (sift code).kept.reverse [] hnop
      rw [List.append_nil] at hlast
      exact hmore.tail hlast
    · rw [htake]
      rw [hcons, List.reverse_cons, List.append_assoc] at hmore
      have hlast := Deletes.pair rest.reverse [] hdup hpop
      rw [List.append_nil] at hlast
      exact hmore.tail hlast
    · rw [htake, List.reverse_cons]
      exact hmore

/-- There is nothing to delete in what is kept. -/
theorem kept_clean (code : List Instruction) : Clean (sift code).kept.reverse := by
  induction code using List.reverseRecOn with
  | nil => exact ⟨fun _ h => absurd h List.not_mem_nil, .nil⟩
  | append_singleton code ins ih =>
    rw [sift_concat]
    rcases take_cases (sift code) ins with ⟨-, htake⟩ | ⟨-, dup, rest, hcons, -, htake⟩
      | ⟨hnop, hpop, htake⟩
    · rw [htake]
      exact ih
    · rw [htake]
      rw [hcons, List.reverse_cons] at ih
      exact ⟨fun i hi => ih.nops i (List.mem_append_left _ hi), ih.pairs.left_of_append⟩
    · rw [htake, List.reverse_cons]
      constructor
      · intro i hi
        rcases List.mem_append.mp hi with hi | hi
        · exact ih.nops i hi
        · rwa [List.mem_singleton.mp hi]
      · refine List.isChain_append.mpr ⟨ih.pairs, .singleton ins, fun a ha b hb hdup hb' => ?_⟩
        -- Behind a duplicate that is kept comes no discard, as it would have cancelled it.
        rw [List.getLast?_reverse] at ha
        obtain ⟨rest, hrest⟩ := List.head?_eq_some_iff.mp ha
        cases hb
        exact hpop hb' a rest hrest hdup

/-- All of a code without junk is kept. -/
theorem Clean.kept (h : Clean code) : (sift code).kept.reverse = code := by
  rcases (deletes_kept code).cases_head with hsame | ⟨next, hstep, -⟩
  · exact hsame.symm
  · exact absurd hstep (clean_iff.mp h next)

theorem Clean.inCode (h : Clean code) : inCode code = [] := by
  have hperm := sift_perm code
  have hlength := hperm.length_eq
  rw [List.length_append, ← List.length_reverse, h.kept] at hlength
  exact List.length_eq_zero_iff.mp (by unfold Junk.inCode; omega)

/-! ## The normal form -/

/-- Dropping the junk of a code brings it down to its normal form. What is left is the code
    without the instructions that are dropped. In it there is no no-op and no duplicate directly
    in front of a discard, and nothing more is dropped of it. However deletions are made in the
    code, they can be continued to what is left; and it is all that they can come to when nothing
    is left to delete. -/
theorem inCode_normal (code : List Instruction) :
    ∃ left : List Instruction,
      (left.Sublist code ∧ (left ++ inCode code).Perm code
        ∧ ((code.map (·.uid)).Nodup →
          left = code.filter fun ins => (inCode code).all fun d => d.uid != ins.uid))
      ∧ Clean left ∧ inCode left = []
      ∧ (∀ other, ReflTransGen Deletes code other → ReflTransGen Deletes other left)
      ∧ ∀ other, (ReflTransGen Deletes code other ∧ ∀ next, ¬ Deletes other next)
        ↔ other = left := by
  have hclean := kept_clean code
  have hcontinue (other : List Instruction) (h : ReflTransGen Deletes code other) :
      ReflTransGen Deletes other (sift code).kept.reverse := by
    rw [← kept_of_deletes h]
    exact deletes_kept other
  refine ⟨(sift code).kept.reverse, ⟨sift_sublist code, ?_, fun h => (filter_stays h).symm⟩,
    hclean, hclean.inCode, hcontinue, fun other => ⟨?_, ?_⟩⟩
  · exact ((List.reverse_perm _).append_right _).trans (sift_perm code)
  · rintro ⟨hreach, hnone⟩
    rw [← kept_of_deletes hreach]
    exact (clean_iff.mpr hnone).kept.symm
  · rintro rfl
    exact ⟨deletes_kept code, clean_iff.mp hclean⟩

/-- Two nested pairs, with a no-op in the middle. -/
example :
    (inCode
      [{ opcode := some .dup, uid := 0 }, { opcode := some .dup, uid := 1 },
       { opcode := some .nop, uid := 2 }, { opcode := some .pop, uid := 3 },
       { opcode := some .pop, uid := 4 }]).map (·.uid) = [2, 1, 3, 0, 4] := rfl

end Junk

end Untangle
