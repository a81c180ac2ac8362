/-
  Untangle.Proofs.Abstract.Alike

  Constants up to equality. Joining two paths keeps a constant if both have one of the same
  kind that counts as equal, and then keeps the first of the two; so what an analysis knows
  is at best known up to equality. For that to make sense equality has to behave: a double
  that is not a number is not even equal to itself, and a join loses it. `Under` says that
  the constants with a lawful equality are known on the other side, `Within` says so of the
  integers only.
-/
import Untangle.Proofs.Abstract.Order

namespace Untangle

namespace Value

/-- Two values of the same kind that count as equal. -/
def Alike (v w : Value) : Prop := v.sameKind w = true ∧ v.equal w = true

/-- A value whose equality behaves: it is like itself, and what is like it is like the same
    values. -/
def Lawful (v : Value) : Prop := v.Alike v ∧ ∀ w, v.Alike w → ∀ x, v.Alike x ↔ w.Alike x

theorem Lawful.of_alike {v w : Value} (h : v.Lawful) (hw : v.Alike w) : w.Lawful :=
  ⟨(h.2 w hw w).mp hw, fun x hx y =>
    (h.2 w hw y).symm.trans (h.2 x ((h.2 w hw x).mpr hx) y)⟩

/-- Whether a value is neither a double nor a collection. -/
def isPlain : Value → Bool
  | .null | .bool _ | .int _ | .str _ => true
  | _ => false

/-- Values that are neither doubles nor collections are like themselves only. -/
theorem alike_iff_eq {v : Value} (hv : v.isPlain = true) (w : Value) : v.Alike w ↔ v = w := by
  unfold Alike
  constructor
  · rintro ⟨hkind, hequal⟩
    cases v with
    | null => cases w <;> simp [sameKind] at hkind ⊢
    | bool b =>
      cases w with
      | bool c => cases b <;> cases c <;> simp [equal, wholeNumber?, asInt?] at hequal ⊢
      | _ => cases hkind
    | int n =>
      cases w with
      | int k => simpa [equal, wholeNumber?, asInt?] using hequal
      | _ => cases hkind
    | str a =>
      cases w with
      | str b => simpa [equal] using hequal
      | _ => cases hkind
    | _ => cases hv
  · rintro rfl
    cases v with
    | null => exact ⟨rfl, by simp [equal]⟩
    | bool b => exact ⟨rfl, by simp [equal, wholeNumber?, asInt?]⟩
    | int n => exact ⟨rfl, by simp [equal, wholeNumber?, asInt?]⟩
    | str a => exact ⟨rfl, by simp [equal]⟩
    | _ => cases hv

theorem lawful_of_isPlain {v : Value} (hv : v.isPlain = true) : v.Lawful :=
  ⟨(alike_iff_eq hv v).mpr rfl, fun w hw x => by rw [(alike_iff_eq hv w).mp hw]⟩

end Value

namespace AbstractValue

/-- An integer that is known is known on the other side. -/
def Within (a b : AbstractValue) : Prop := ∀ n, a = .known (.int n) → b = .known (.int n)

/-- A lawful constant that is known is known on the other side, up to equality. -/
def Under (a b : AbstractValue) : Prop :=
  ∀ v, a = .known v → v.Lawful → ∃ w, b = .known w ∧ v.Alike w

theorem Under.trans {a b c : AbstractValue} (h : a.Under b) (h' : b.Under c) : a.Under c := by
  intro v hv hlawful
  obtain ⟨w, hw, hvw⟩ := h v hv hlawful
  obtain ⟨x, hx, hwx⟩ := h' w hw (hlawful.of_alike hvw)
  exact ⟨x, hx, (hlawful.2 w hvw x).mpr hwx⟩

/-- Integers are lawful, and like themselves only. -/
theorem Under.within {a b : AbstractValue} (h : a.Under b) : a.Within b := by
  intro n hn
  have hplain : (Value.int n).isPlain = true := rfl
  obtain ⟨w, hw, hlike⟩ := h _ hn (Value.lawful_of_isPlain hplain)
  rw [hw, (Value.alike_iff_eq hplain w).mp hlike]

theorem under_of_noMore {a b : AbstractValue} (h : AbstractStack.NoMore a b) : a.Under b :=
  fun v hv hlawful => ⟨v, h v hv, hlawful.1⟩

/-- What both sides know is known of their join. -/
def Joins (R : AbstractValue → AbstractValue → Prop) : Prop :=
  ∀ r a b, R r a → R r b → R r (a.join b)

/-- The join of two constants that are alike. -/
theorem join_of_alike {v w : Value} (h : v.Alike w) :
    (AbstractValue.known v).join (.known w) = .known v := by
  show (if v.sameKind w && v.equal w then AbstractValue.known v else .unknown) = .known v
  rw [h.1, h.2]
  rfl

theorem within_joins : Joins Within := by
  intro r a b ha hb n hn
  rw [ha n hn, hb n hn]
  exact join_of_alike ((Value.alike_iff_eq rfl _).mpr rfl)

theorem under_joins : Joins Under := by
  intro r a b ha hb v hv hlawful
  obtain ⟨x, hx, hvx⟩ := ha v hv hlawful
  obtain ⟨y, hy, hvy⟩ := hb v hv hlawful
  refine ⟨x, ?_, hvx⟩
  rw [hx, hy]
  exact join_of_alike ((hlawful.2 x hvx y).mp hvy)

theorem unknown_within (a : AbstractValue) : Within .unknown a := fun _ hn => by cases hn

theorem unknown_under (a : AbstractValue) : Under .unknown a := fun _ hv => by cases hv

end AbstractValue

namespace AbstractStack

open AbstractValue

/-- What is known of one stack is known of another, up to equality. -/
abbrev Under (s t : AbstractStack) : Prop := Weakens AbstractValue.Under s t

theorem within_congruent (m : Machine) : Congruent m AbstractValue.Within where
  refl _ _ h := h
  result _ _ _ h _ hn := resultOf_keeps (fun _ _ k hab ha => hab k ha) h hn

theorem under_congruent (m : Machine) : Congruent m AbstractValue.Under where
  refl _ v hv hlawful := ⟨v, hv, hlawful.1⟩
  result _ _ _ h v hv hlawful :=
    ⟨v, resultOf_keeps (fun _ _ k hab ha => hab.within k ha) h hv, hlawful.1⟩

theorem Under.refl (s : AbstractStack) : Under s s := (under_congruent {}).weakens_refl s

theorem Under.trans {s t u : AbstractStack} (h : Under s t) (h' : Under t u) : Under s u :=
  Weakens.trans (R := AbstractValue.Under) (fun _ _ _ => AbstractValue.Under.trans) h h'

theorem Lower.under {s t : AbstractStack} (h : Lower s t) : Under s t :=
  ⟨h.depth, fun i => under_of_noMore (h.values i)⟩

theorem unknown_under (s : AbstractStack) : Under unknown s :=
  unknown_weakens AbstractValue.unknown_under s

end AbstractStack

end Untangle
