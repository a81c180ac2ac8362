/-
  Untangle.Proofs.Abstract.Join

  Joining stacks and comparing them. What is known of a join is known on the left, and up to
  equality on the right too; what both sides know is known of a join unless it gives up, and
  it gives up where the depth of a side is not known. Values count as the same across kinds,
  so stacks that compare as the same know the same only if one of them knows no more than the
  other (`Lower.of_same`).
-/
import Untangle.Proofs.Abstract.Alike
import Untangle.Proofs.Abstract.Sound

namespace Untangle

namespace AbstractStack

open AbstractValue (Joins)

/-- What is known of a join. -/
theorem join_known {a b : AbstractValue} {v : Value} (h : a.join b = .known v) :
    a = .known v ∧ ∃ w, b = .known w ∧ v.Alike w := by
  cases a with
  | unknown => exact nomatch (show AbstractValue.unknown = .known v from h)
  | known v' =>
    cases b with
    | unknown => exact nomatch (show AbstractValue.unknown = .known v from h)
    | known w =>
      have hif : (if v'.sameKind w && v'.equal w then AbstractValue.known v' else .unknown)
          = .known v := h
      split at hif
      · rename_i hboth
        cases hif
        rw [Bool.and_eq_true] at hboth
        exact ⟨rfl, w, rfl, hboth⟩
      · cases hif

/-- Two stacks whose depths are known and the same, so that they can be joined. -/
structure Joinable (s t : AbstractStack) : Prop where
  left : s.depthKnown = true
  right : t.depthKnown = true
  length : s.values.length = t.values.length

/-- A join gives up unless the depths are known and the same. -/
theorem join_cases (s t : AbstractStack) :
    (Joinable s t ∧ (s.join t).depthKnown = true
        ∧ (s.join t).values.length = s.values.length
        ∧ ∀ i, (s.join t).valueAt i = (s.valueAt i).join (t.valueAt i))
      ∨ (¬Joinable s t ∧ s.join t = unknown) := by
  unfold join
  split
  · rename_i hall
    simp only [Bool.and_eq_true, beq_iff_eq] at hall
    obtain ⟨⟨hs, ht⟩, hlength⟩ := hall
    refine Or.inl ⟨⟨hs, ht, hlength⟩, rfl, ?_, fun i => ?_⟩
    · show (List.zipWith _ s.values t.values).length = s.values.length
      rw [List.length_zipWith, ← hlength, Nat.min_self]
    · unfold valueAt
      dsimp only
      rw [List.getElem?_zipWith]
      by_cases hi : i < s.values.length
      · rw [List.getElem?_eq_getElem hi, List.getElem?_eq_getElem (hlength ▸ hi)]
        rfl
      · rw [List.getElem?_eq_none (by omega), List.getElem?_eq_none (by omega)]
        rfl
  · rename_i hnot
    refine Or.inr ⟨fun h => hnot ?_, rfl⟩
    rw [h.left, h.right, h.length, beq_self_eq_true]
    rfl

theorem join_lower (s t : AbstractStack) : Lower (s.join t) s := by
  rcases join_cases s t with ⟨hjoinable, -, hlength, hvalues⟩ | ⟨-, hunknown⟩
  · refine ⟨fun _ => ⟨hjoinable.left, hlength⟩, fun i v hv => ?_⟩
    rw [hvalues] at hv
    exact (join_known hv).1
  · rw [hunknown]
    exact unknown_lower s

theorem join_under (s t : AbstractStack) : Under (s.join t) t := by
  rcases join_cases s t with ⟨hjoinable, -, hlength, hvalues⟩ | ⟨-, hunknown⟩
  · refine ⟨fun _ => ⟨hjoinable.right, hlength.trans hjoinable.length⟩, fun i v hv _ => ?_⟩
    rw [hvalues] at hv
    exact (join_known hv).2
  · rw [hunknown]
    exact unknown_under t

/-- What weakens both sides weakens their join, unless the join gives up; and that it does
    not do where the depth is known. -/
theorem Weakens.join {R : AbstractValue → AbstractValue → Prop} (hR : Joins R)
    {r s t : AbstractStack} (hs : Weakens R r s) (ht : Weakens R r t) :
    Weakens R r (s.join t) ∨ (s.join t = unknown ∧ r.depthKnown = false) := by
  rcases join_cases s t with ⟨-, hknown, hlength, hvalues⟩ | ⟨hnot, hunknown⟩
  · left
    refine ⟨fun hr => ⟨hknown, (hs.depth hr).2.trans hlength.symm⟩, fun i => ?_⟩
    rw [hvalues]
    exact hR _ _ _ (hs.values i) (ht.values i)
  · right
    refine ⟨hunknown, Bool.eq_false_iff.mpr fun hr => hnot ?_⟩
    obtain ⟨hknown, hlength⟩ := hs.depth hr
    exact ⟨hknown, (ht.depth hr).1, hlength.symm.trans (ht.depth hr).2⟩

/-! ## Comparing -/

theorem sameValues_length {xs ys : List AbstractValue} (h : sameValues xs ys = true) :
    xs.length = ys.length := by
  induction xs generalizing ys with
  | nil =>
    cases ys with
    | nil => rfl
    | cons y ys => cases h
  | cons x xs ih =>
    cases ys with
    | nil => cases h
    | cons y ys => exact congrArg (· + 1) (ih (Bool.and_eq_true _ _ ▸ h).2)

theorem sameValues_getD {xs ys : List AbstractValue} (h : sameValues xs ys = true) (i : Nat) :
    ((xs[i]?).getD .unknown).same ((ys[i]?).getD .unknown) = true := by
  induction xs generalizing ys i with
  | nil =>
    cases ys with
    | nil => rfl
    | cons y ys => cases h
  | cons x xs ih =>
    cases ys with
    | nil => cases h
    | cons y ys =>
      obtain ⟨hxy, hrest⟩ := Bool.and_eq_true _ _ ▸ h
      cases i with
      | zero => exact hxy
      | succ i => exact ih hrest i

/-- Stacks that count as the same have the same depth, and values that count as the same. -/
theorem same_parts {s t : AbstractStack} (h : s.same t = true) :
    s.depthKnown = t.depthKnown ∧ s.values.length = t.values.length
      ∧ ∀ i, (s.valueAt i).same (t.valueAt i) = true := by
  obtain ⟨hdepth, hvalues⟩ := Bool.and_eq_true _ _ ▸ h
  exact ⟨eq_of_beq hdepth, sameValues_length hvalues, sameValues_getD hvalues⟩

/-- Stacks that count as the same know the same, if one knows no more than the other. -/
theorem Lower.of_same {s t : AbstractStack} (h : Lower s t)
    (hsame : s.same t = true ∨ t.same s = true) : Lower t s := by
  have hdepth : t.depthKnown = s.depthKnown ∧ t.values.length = s.values.length := by
    rcases hsame with hsame | hsame
    · exact ⟨(same_parts hsame).1.symm, (same_parts hsame).2.1.symm⟩
    · exact ⟨(same_parts hsame).1, (same_parts hsame).2.1⟩
  refine ⟨fun ht => ⟨hdepth.1 ▸ ht, hdepth.2⟩, fun i v hv => ?_⟩
  have hi : (s.valueAt i).same (t.valueAt i) = true ∨ (t.valueAt i).same (s.valueAt i) = true :=
    hsame.imp (fun hsame => (same_parts hsame).2.2 i) fun hsame => (same_parts hsame).2.2 i
  cases hs : s.valueAt i with
  | known w => rw [← h.values i w hs, hv]
  | unknown =>
    rw [hs, hv] at hi
    rcases hi with hi | hi <;> cases hi

theorem eq_unknown_of_same {s : AbstractStack} (h : unknown.same s = true) : s = unknown := by
  obtain ⟨values, depthKnown⟩ := s
  obtain ⟨hdepth, hlength, -⟩ := same_parts h
  have hvalues : values = [] := List.eq_nil_of_length_eq_zero hlength.symm
  subst hvalues
  cases depthKnown with
  | false => rfl
  | true => cases hdepth

end AbstractStack

end Untangle
