/-
  Untangle.Proofs.Lists

  Facts about lists that the library does not have in this form: lists without repetition,
  tables made from lists, and checks that go through a list.
-/
import Mathlib.Data.List.Flatten
import Mathlib.Data.List.Induction
import Mathlib.Data.List.Nodup
import Mathlib.Data.List.NodupEquivFin
import Mathlib.Data.List.TakeWhile
import Untangle.Graph.Edges

namespace Untangle

/-- A list without repetition is cut in one way only at an item. -/
theorem append_cons_inj_of_nodup {α : Type} {l r l' r' : List α} {a : α}
    (hnodup : (l ++ a :: r).Nodup) (h : l ++ a :: r = l' ++ a :: r') : l = l' ∧ r = r' := by
  have hnot := (List.nodup_cons.mp (List.nodup_middle.mp hnodup)).1
  obtain ⟨hl, -, hr⟩ := (List.append_cons_inj_of_notMem
    (fun hin => hnot (List.mem_append_left _ hin))
    (fun hin => hnot (List.mem_append_right _ hin))).mp h
  exact ⟨hl, hr⟩

/-- Leaving out repetitions keeps the items. -/
theorem mem_distinct {α : Type} [BEq α] [LawfulBEq α] (items : List α) (a : α) :
    a ∈ distinct items ↔ a ∈ items := by
  have key (seen : List α) :
      a ∈ items.foldl (fun seen a => if seen.contains a then seen else seen ++ [a]) seen
        ↔ a ∈ seen ∨ a ∈ items := by
    induction items generalizing seen with
    | nil => simp
    | cons b items ih =>
      rw [List.foldl_cons, ih, List.mem_cons]
      split
      · rename_i hb
        have hb' : b ∈ seen := by simpa using hb
        constructor
        · rintro (h | h)
          · exact Or.inl h
          · exact Or.inr (Or.inr h)
        · rintro (h | rfl | h)
          · exact Or.inl h
          · exact Or.inl hb'
          · exact Or.inr h
      · rw [List.mem_append, List.mem_singleton, or_assoc]
  have hkey := key []
  rw [List.mem_nil_iff, false_or] at hkey
  exact hkey

/-- No item is left twice. -/
theorem distinct_nodup {α : Type} [BEq α] [LawfulBEq α] (items : List α) :
    (distinct items).Nodup := by
  have hfold (seen : List α) (hseen : seen.Nodup) :
      (items.foldl (fun seen a => if seen.contains a then seen else seen ++ [a]) seen).Nodup := by
    induction items generalizing seen with
    | nil => exact hseen
    | cons a items ih =>
      rw [List.foldl_cons]
      refine ih _ ?_
      split
      · exact hseen
      · rename_i hnot
        exact List.nodup_append.mpr ⟨hseen, List.nodup_singleton a, fun b hb c hc heq =>
          hnot (List.contains_iff_mem.mpr (List.mem_singleton.mp hc ▸ heq ▸ hb))⟩
  exact hfold [] List.nodup_nil

/-- The label after another one in a list without repetition. -/
theorem labelAfter?_eq_some {labels : List Int} (hnodup : labels.Nodup) {label next : Int} :
    Graph.labelAfter? label labels = some next
      ↔ ∃ before rest, labels = before ++ label :: next :: rest := by
  induction labels with
  | nil => simp [Graph.labelAfter?]
  | cons l labels ih =>
    obtain ⟨hl, hrest⟩ := List.nodup_cons.mp hnodup
    by_cases h : l = label
    · subst h
      simp only [Graph.labelAfter?, beq_self_eq_true, if_true]
      refine ⟨fun hhead => ?_, ?_⟩
      · obtain ⟨rest, rfl⟩ := List.head?_eq_some_iff.mp hhead
        exact ⟨[], rest, rfl⟩
      · rintro ⟨before, rest, heq⟩
        cases before with
        | nil => cases heq; rfl
        | cons x before =>
          obtain ⟨rfl, rfl⟩ := List.cons.inj heq
          exact absurd (List.mem_append_right before List.mem_cons_self) hl
    · have hne : (l == label) = false := by simpa using h
      simp only [Graph.labelAfter?, hne, Bool.false_eq_true, if_false, ih hrest]
      refine ⟨?_, ?_⟩
      · rintro ⟨before, rest, rfl⟩
        exact ⟨l :: before, rest, rfl⟩
      · rintro ⟨before, rest, heq⟩
        cases before with
        | nil => cases heq; exact absurd rfl h
        | cons x before =>
          obtain ⟨-, heq⟩ := List.cons.inj heq
          exact ⟨before, rest, heq⟩

/-- The item with a key is found, if keys are unique. -/
theorem find?_of_nodup {α : Type} (key : α → Int) {items : List α} {a : α}
    (hnodup : (items.map key).Nodup) (ha : a ∈ items) :
    items.find? (fun x => key x == key a) = some a := by
  induction items with
  | nil => cases ha
  | cons x items ih =>
    obtain ⟨hx, hrest⟩ := List.nodup_cons.mp hnodup
    rcases List.mem_cons.mp ha with rfl | ha
    · rw [List.find?_cons_of_pos (by exact beq_self_eq_true _)]
    · have hne : key x ≠ key a := fun heq => hx (heq ▸ List.mem_map_of_mem ha)
      rw [List.find?_cons_of_neg (by simpa using hne)]
      exact ih hrest ha

/-- A table made from a list whose keys are unique. -/
theorem lookup_map_of_nodup {α β : Type} (key : α → Int) (f : α → β) {items : List α} {a : α}
    (hnodup : (items.map key).Nodup) (ha : a ∈ items) :
    (items.map fun x => (key x, f x)).lookup (key a) = some (f a) := by
  induction items with
  | nil => cases ha
  | cons x items ih =>
    obtain ⟨hx, hrest⟩ := List.nodup_cons.mp hnodup
    rw [List.map_cons, List.lookup_cons]
    rcases List.mem_cons.mp ha with rfl | ha
    · simp
    · have hne : (key a == key x) = false := by
        have : key a ≠ key x := fun heq => hx (heq ▸ List.mem_map_of_mem ha)
        simpa using this
      rw [hne]
      exact ih hrest ha

/-- The value that is found in a table is there. -/
theorem mem_of_lookup {α β : Type} [BEq α] [LawfulBEq α] {table : List (α × β)} {key : α}
    {v : β} (h : table.lookup key = some v) : (key, v) ∈ table := by
  induction table with
  | nil => cases h
  | cons e table ih =>
    rw [List.lookup_cons] at h
    split at h
    · rename_i heq
      cases h
      rw [eq_of_beq heq]
      exact List.mem_cons_self
    · exact List.mem_cons_of_mem _ (ih h)

/-- A computation that has a result with some property. -/
theorem exists_ok_of_any {α ε : Type} {x : Except ε α} {p : α → Bool}
    (h : x.toOption.any p = true) : ∃ a, x = .ok a ∧ p a = true := by
  cases x with
  | error e => cases h
  | ok a => exact ⟨a, rfl, h⟩

/-- Two computations one after the other give a result when both do. -/
theorem bind_eq_ok {α β ε : Type} {x : Except ε α} {f : α → Except ε β} {b : β} :
    (x >>= f) = .ok b ↔ ∃ a, x = .ok a ∧ f a = .ok b := by
  cases x with
  | error e => exact ⟨(nomatch ·), fun ⟨a, ha, _⟩ => nomatch ha⟩
  | ok a =>
    refine ⟨fun h => ⟨a, rfl, h⟩, ?_⟩
    rintro ⟨a', ha', hb⟩
    cases ha'
    exact hb

/-- A check goes through a list exactly when each item passes. -/
theorem forM_eq_ok {α ε : Type} {f : α → Except ε Unit} {items : List α} :
    items.forM f = .ok () ↔ ∀ a ∈ items, f a = .ok () := by
  induction items with
  | nil => exact ⟨fun _ _ ha => absurd ha List.not_mem_nil, fun _ => rfl⟩
  | cons a items ih =>
    have hcons : (a :: items).forM f = (f a >>= fun _ => items.forM f) := rfl
    rw [hcons]
    cases ha : f a with
    | error e =>
      refine ⟨(nomatch ·), fun h => ?_⟩
      rw [h a List.mem_cons_self] at ha
      cases ha
    | ok u =>
      show items.forM f = .ok () ↔ _
      rw [ih]
      refine ⟨fun h b hb => ?_, fun h b hb => h b (List.mem_cons_of_mem _ hb)⟩
      rcases List.mem_cons.mp hb with rfl | hb
      · exact ha
      · exact h b hb

/-- What a list is mapped to when each item gives a result. -/
theorem mapM_eq_ok {α β ε : Type} {f : α → Except ε β} {items : List α} {results : List β} :
    items.mapM f = .ok results ↔ List.Forall₂ (fun a b => f a = .ok b) items results := by
  induction items generalizing results with
  | nil =>
    rw [List.mapM_nil]
    constructor
    · intro h; cases h; exact List.Forall₂.nil
    · intro h; cases h; rfl
  | cons a items ih =>
    rw [List.mapM_cons]
    constructor
    · intro h
      cases ha : f a with
      | error e => rw [ha] at h; cases h
      | ok b =>
        cases hrest : items.mapM f with
        | error e => rw [ha, hrest] at h; cases h
        | ok bs =>
          rw [ha, hrest] at h
          cases h
          exact List.Forall₂.cons ha (ih.mp hrest)
    · intro h
      cases h with
      | cons ha hrest => rw [ha, ih.mpr hrest]; rfl

/-- Going through items that were taken from others. -/
theorem mapM_map_map {α β γ δ ε : Type} {f : α → Except ε γ} {f' : β → Except ε δ} {g : α → β}
    {k : γ → δ} (h : ∀ a, f' (g a) = (f a).map k) (items : List α) :
    (items.map g).mapM f' = (items.mapM f).map fun results => results.map k := by
  induction items with
  | nil => rfl
  | cons a items ih =>
    rw [List.map_cons, List.mapM_cons, List.mapM_cons, h, ih]
    cases f a with
    | error e => rfl
    | ok c => cases items.mapM f <;> rfl

/-- What is kept of a list when each item gives a result or nothing. -/
theorem filterMapM_eq_ok {α β ε : Type} {f : α → Except ε (Option β)} {items : List α}
    {results : List β} :
    items.filterMapM f = .ok results
      ↔ ∃ found, List.Forall₂ (fun a r => f a = .ok r) items found
          ∧ results = found.filterMap id := by
  induction items generalizing results with
  | nil =>
    rw [List.filterMapM_nil]
    constructor
    · intro h
      cases h
      exact ⟨[], List.Forall₂.nil, rfl⟩
    · rintro ⟨found, hfound, rfl⟩
      cases hfound
      rfl
  | cons a items ih =>
    rw [List.filterMapM_cons, bind_eq_ok]
    constructor
    · rintro ⟨r, ha, h⟩
      cases r with
      | none =>
        obtain ⟨found, hfound, rfl⟩ := ih.mp h
        exact ⟨none :: found, List.Forall₂.cons ha hfound, rfl⟩
      | some b =>
        obtain ⟨rest, hrest, h⟩ := bind_eq_ok.mp h
        obtain ⟨found, hfound, rfl⟩ := ih.mp hrest
        cases h
        exact ⟨some b :: found, List.Forall₂.cons ha hfound, rfl⟩
    · rintro ⟨found, hfound, rfl⟩
      cases hfound with
      | @cons _ r _ found ha hrest =>
        refine ⟨r, ha, ?_⟩
        have hih := ih.mpr ⟨found, hrest, rfl⟩
        cases r with
        | none => exact hih
        | some b => exact bind_eq_ok.mpr ⟨_, hih, rfl⟩

/-! ## What fails -/

section Errors

variable {α β ε : Type} {e : ε}

theorem bind_eq_error {x : Except ε α} {f : α → Except ε β} :
    (x >>= f) = .error e ↔ x = .error e ∨ ∃ a, x = .ok a ∧ f a = .error e := by
  cases x with
  | error e' => exact ⟨fun h => Or.inl (by cases h; rfl), fun h => h.elim (fun h => by cases h; rfl)
      fun ⟨_, h, _⟩ => nomatch h⟩
  | ok a => exact ⟨fun h => Or.inr ⟨a, rfl, h⟩, fun h => h.elim (fun h => nomatch h)
      fun ⟨_, h, hf⟩ => by cases h; exact hf⟩

theorem mapM_eq_error {f : α → Except ε β} {items : List α} (h : items.mapM f = .error e) :
    ∃ a ∈ items, f a = .error e := by
  induction items with
  | nil => cases h
  | cons a items ih =>
    rw [List.mapM_cons] at h
    rcases bind_eq_error.mp h with ha | ⟨_, -, h⟩
    · exact ⟨a, List.mem_cons_self, ha⟩
    rcases bind_eq_error.mp h with hrest | ⟨_, -, h⟩
    · obtain ⟨b, hb, hfail⟩ := ih hrest
      exact ⟨b, List.mem_cons_of_mem _ hb, hfail⟩
    · cases h

end Errors

/-- Keeping or dropping each item is a filter. -/
theorem flatMap_ite {α : Type} (p : α → Bool) (items : List α) :
    (items.flatMap fun a => if p a then [a] else []) = items.filter p := by
  induction items with
  | nil => rfl
  | cons a items ih =>
    rw [List.flatMap_cons, List.filter_cons, ih]
    split <;> rfl

/-- Items at one place of two lists that go together. -/
theorem forall₂_getElem? {α β : Type} {R : α → β → Prop} {xs : List α} {ys : List β}
    (h : List.Forall₂ R xs ys) {i : Nat} {x : α} (hx : xs[i]? = some x) :
    ∃ y, ys[i]? = some y ∧ R x y := by
  induction h generalizing i with
  | nil => cases hx
  | @cons a b xs ys hab hrest ih =>
    cases i with
    | zero => cases hx; exact ⟨b, rfl, hab⟩
    | succ i => exact ih hx

/-- Each item of the second of two lists that go together has a partner in the first. -/
theorem exists_of_forall₂ {α β : Type} {R : α → β → Prop} {xs : List α} {ys : List β}
    (h : List.Forall₂ R xs ys) {y : β} (hy : y ∈ ys) : ∃ x ∈ xs, R x y := by
  obtain ⟨i, hi⟩ := List.mem_iff_getElem?.mp hy
  obtain ⟨x, hx, hxy⟩ := forall₂_getElem? h.flip hi
  exact ⟨x, List.mem_of_getElem? hx, hxy⟩

/-- Partners are items of their lists. -/
theorem forall₂_mem {α β : Type} {R : α → β → Prop} {xs : List α} {ys : List β}
    (h : List.Forall₂ R xs ys) :
    List.Forall₂ (fun x y => x ∈ xs ∧ y ∈ ys ∧ R x y) xs ys :=
  (List.forall₂_and_left _ _).mpr ⟨fun _ hx => hx,
    ((List.forall₂_and_left _ _).mpr ⟨fun _ hy => hy, h.flip⟩).flip⟩

/-- The partners of partners. -/
theorem forall₂_comp {α β γ : Type} {R : α → β → Prop} {S : β → γ → Prop} {xs : List α}
    {ys : List β} {zs : List γ} (h : List.Forall₂ R xs ys) (h' : List.Forall₂ S ys zs) :
    List.Forall₂ (fun x z => ∃ y, R x y ∧ S y z) xs zs := by
  induction h generalizing zs with
  | nil =>
    cases h'
    exact .nil
  | cons hR _ ih =>
    cases h' with
    | cons hS hrest => exact .cons ⟨_, hR, hS⟩ (ih hrest)

/-- The first item with a property is still the first when others are left out. -/
theorem find?_filter_of_some {α : Type} {p q : α → Bool} {items : List α} {a : α}
    (h : items.find? q = some a) (ha : p a = true) : (items.filter p).find? q = some a := by
  induction items with
  | nil => cases h
  | cons b items ih =>
    rw [List.find?_cons] at h
    cases hq : q b with
    | true =>
      rw [hq] at h
      cases h
      rw [List.filter_cons_of_pos ha, List.find?_cons_of_pos hq]
    | false =>
      rw [hq] at h
      rw [List.filter_cons]
      split
      · rw [List.find?_cons_of_neg (by rw [hq]; decide)]
        exact ih h
      · exact ih h

/-- Finitely many integers have an integer above them. -/
theorem exists_above (ns : List Int) : ∃ bound, ∀ n ∈ ns, n < bound := by
  induction ns with
  | nil => exact ⟨0, nofun⟩
  | cons n ns ih =>
    obtain ⟨bound, hbound⟩ := ih
    refine ⟨max bound (n + 1), List.forall_mem_cons.mpr ⟨by omega, fun k hk => ?_⟩⟩
    have := hbound k hk
    omega

/-- What a list is sent to comes from one of its items. -/
theorem exists_of_mapM {α β ε : Type} {f : α → Except ε β} {items : List α} {results : List β}
    (h : items.mapM f = .ok results) {b : β} (hb : b ∈ results) : ∃ a ∈ items, f a = .ok b := by
  obtain ⟨i, hi⟩ := List.mem_iff_getElem?.mp hb
  obtain ⟨a, ha, hab⟩ := forall₂_getElem? (mapM_eq_ok.mp h).flip hi
  exact ⟨a, List.mem_of_getElem? ha, hab⟩

/-- Where each item has a partner, a list has partners. -/
theorem exists_forall₂ {α β : Type} {R : α → β → Prop} {items : List α}
    (h : ∀ a ∈ items, ∃ b, R a b) : ∃ partners, List.Forall₂ R items partners := by
  induction items with
  | nil => exact ⟨[], .nil⟩
  | cons a items ih =>
    obtain ⟨b, hb⟩ := h a List.mem_cons_self
    obtain ⟨partners, hpartners⟩ := ih fun c hc => h c (List.mem_cons_of_mem _ hc)
    exact ⟨b :: partners, .cons hb hpartners⟩

/-- Where an item of a joined list stands in the lists that are joined. -/
theorem flatMap_eq_append_cons {α β : Type} {f : α → List β} {items : List α}
    {before after : List β} {b : β} (h : items.flatMap f = before ++ b :: after) :
    ∃ front a back init rest, items = front ++ a :: back ∧ f a = init ++ b :: rest
      ∧ before = front.flatMap f ++ init ∧ after = rest ++ back.flatMap f := by
  induction items generalizing before with
  | nil => exact absurd h (by simp)
  | cons a items ih =>
    rw [List.flatMap_cons] at h
    rcases List.append_eq_append_iff.mp h with ⟨more, rfl, hrest⟩ | ⟨more, hfirst, hrest⟩
    · obtain ⟨front, a', back, init, rest, rfl, ha, rfl, rfl⟩ := ih hrest
      exact ⟨a :: front, a', back, init, rest, rfl, ha, by rw [List.flatMap_cons]; simp, rfl⟩
    · rcases List.cons_eq_append_iff.mp hrest with ⟨rfl, hrest⟩ | ⟨rest, rfl, rfl⟩
      · have hrest' : items.flatMap f = [] ++ b :: after := hrest.symm
        obtain ⟨front, a', back, init, rest, rfl, ha, hinit, rfl⟩ := ih hrest'
        rw [List.append_nil] at hfirst
        refine ⟨a :: front, a', back, init, rest, rfl, ha, ?_, rfl⟩
        rw [List.flatMap_cons, List.append_assoc, ← hinit, List.append_nil, hfirst]
      · exact ⟨[], a, items, before, rest, rfl, hfirst, rfl, rfl⟩

/-- Where nothing in front of the end of a list passes, what passes is its end. -/
theorem getLast?_of_mem {α : Type} {l : List α} {p : α → Bool}
    (h : ∀ a ∈ l.dropLast, p a = false) {a : α} (ha : a ∈ l) (hp : p a = true) :
    l.getLast? = some a := by
  rcases List.eq_nil_or_concat l with rfl | ⟨init, last, rfl⟩
  · cases ha
  · rw [List.concat_eq_append] at ha h ⊢
    rw [List.dropLast_concat] at h
    rcases List.mem_append.mp ha with hin | hin
    · rw [h a hin] at hp
      cases hp
    · rw [List.mem_singleton.mp hin, List.getLast?_concat]

/-- Where two lists are joined, an item stands in the first one or is in the second. -/
theorem split_of_append {α : Type} {xs ys front back : List α} {a : α}
    (h : xs ++ ys = front ++ a :: back) : (∃ more, xs = front ++ a :: more) ∨ a ∈ ys := by
  rcases List.append_eq_append_iff.mp h with ⟨more, -, rfl⟩ | ⟨more, rfl, hmore⟩
  · exact Or.inr (List.mem_append_right _ List.mem_cons_self)
  · rcases List.cons_eq_append_iff.mp hmore with ⟨-, rfl⟩ | ⟨rest, rfl, -⟩
    · exact Or.inr List.mem_cons_self
    · exact Or.inl ⟨rest, rfl⟩

/-- Around an item that a list holds once, a sublist is cut as the list is. -/
theorem sublist_around {α : Type} {l r xs ys : List α} {a : α} (hnodup : (l ++ a :: r).Nodup)
    (h : (xs ++ a :: ys).Sublist (l ++ a :: r)) : xs.Sublist l ∧ ys.Sublist r := by
  rw [List.nodup_append, List.nodup_cons] at hnodup
  obtain ⟨-, ⟨hr, -⟩, hapart⟩ := hnodup
  have hl : a ∉ l := fun hmem => hapart a hmem a List.mem_cons_self rfl
  obtain ⟨front, behind, heq, hfront, hbehind⟩ := List.sublist_append_iff.mp h
  rcases List.append_eq_append_iff.mp heq with ⟨more, rfl, hcut⟩ | ⟨more, rfl, rfl⟩
  · cases more with
    | nil =>
      rw [List.nil_append] at hcut
      rw [← hcut] at hbehind
      rw [List.append_nil] at hfront
      exact ⟨hfront, List.cons_sublist_cons.mp hbehind⟩
    | cons b more =>
      obtain rfl : a = b := (List.cons.inj hcut).1
      exact absurd (hfront.subset (List.mem_append_right _ List.mem_cons_self)) hl
  · cases more with
    | nil =>
      rw [List.append_nil]
      exact ⟨hfront, List.cons_sublist_cons.mp hbehind⟩
    | cons b more =>
      -- The item would come once more.
      have hin : a ∈ r := by
        rcases List.sublist_cons_iff.mp hbehind with hbehind | ⟨tail, hcons, hbehind⟩
        · exact hbehind.subset (by simp)
        · obtain ⟨-, rfl⟩ := List.cons.inj hcons
          exact hbehind.subset (by simp)
      exact absurd hin hr

/-- A list and a part of it have the same order. -/
theorem le_iff_of_sublist {α : Type} {xs ys : List α} (hys : ys.Nodup) (h : xs.Sublist ys)
    {a b : α} {i j p q : Nat} (hi : xs[i]? = some a) (hj : xs[j]? = some b)
    (hp : ys[p]? = some a) (hq : ys[q]? = some b) : i ≤ j ↔ p ≤ q := by
  obtain ⟨f, hf⟩ := List.sublist_iff_exists_orderEmbedding_getElem?_eq.mp h
  have hplace {n k : Nat} {c : α} (hn : xs[n]? = some c) (hk : ys[k]? = some c) : f n = k := by
    rw [hf] at hn
    obtain ⟨hlt, -⟩ := List.getElem?_eq_some_iff.mp hn
    exact (List.getElem?_inj hlt hys).mp (hn.trans hk.symm)
  rw [← hplace hi hp, ← hplace hj hq, f.le_iff_le]

/-- Where the item at a place of three lists in a row stands. -/
theorem getElem?_append_cases {α : Type} {before run after : List α} {i : Nat} {a : α}
    (h : (before ++ run ++ after)[i]? = some a) :
    i < before.length ∧ a ∈ before
      ∨ before.length ≤ i ∧ i < before.length + run.length ∧ a ∈ run
      ∨ before.length + run.length ≤ i ∧ a ∈ after := by
  rw [List.append_assoc] at h
  by_cases hbefore : i < before.length
  · rw [List.getElem?_append_left hbefore] at h
    exact Or.inl ⟨hbefore, List.mem_of_getElem? h⟩
  rw [List.getElem?_append_right (by omega)] at h
  by_cases hrun : i - before.length < run.length
  · rw [List.getElem?_append_left hrun] at h
    exact Or.inr (Or.inl ⟨by omega, by omega, List.mem_of_getElem? h⟩)
  · rw [List.getElem?_append_right (by omega)] at h
    exact Or.inr (Or.inr ⟨by omega, List.mem_of_getElem? h⟩)

/-! ## Sums -/

namespace Number

@[simp] theorem totalSize_nil : totalSize [] = 0 := rfl

@[simp] theorem totalSize_cons (n : Nat) (ns : List Nat) :
    totalSize (n :: ns) = n + totalSize ns := rfl

@[simp] theorem totalSize_append (ns more : List Nat) :
    totalSize (ns ++ more) = totalSize ns + totalSize more := by
  induction ns with
  | nil => rw [List.nil_append, totalSize_nil, Nat.zero_add]
  | cons n ns ih => rw [List.cons_append, totalSize_cons, ih, totalSize_cons, Nat.add_assoc]

@[simp] theorem totalSize_reverse (ns : List Nat) : totalSize ns.reverse = totalSize ns := by
  induction ns with
  | nil => rfl
  | cons n ns ih =>
    rw [List.reverse_cons, totalSize_append, ih, totalSize_cons, totalSize_cons, totalSize_nil]
    omega

theorem totalSize_map_le {α : Type} {f g : α → Nat} {items : List α}
    (h : ∀ a ∈ items, f a ≤ g a) : totalSize (items.map f) ≤ totalSize (items.map g) := by
  induction items with
  | nil => exact Nat.le_refl _
  | cons a items ih =>
    have hfirst := h a List.mem_cons_self
    have hrest := ih fun b hb => h b (List.mem_cons_of_mem _ hb)
    rw [List.map_cons, totalSize_cons, List.map_cons, totalSize_cons]
    omega

theorem totalSize_map_one {α : Type} {f : α → Nat} {items : List α} (h : ∀ a ∈ items, f a = 1) :
    totalSize (items.map f) = items.length := by
  induction items with
  | nil => rfl
  | cons a items ih =>
    rw [List.map_cons, totalSize_cons, h a List.mem_cons_self,
      ih fun b hb => h b (List.mem_cons_of_mem _ hb), List.length_cons, Nat.add_comm]

theorem length_flatMap {α β : Type} (f : α → List β) (items : List α) :
    (items.flatMap f).length = totalSize (items.map fun a => (f a).length) := by
  induction items with
  | nil => rfl
  | cons a items ih => rw [List.flatMap_cons, List.length_append, ih, List.map_cons, totalSize_cons]

theorem countP_eq {α : Type} (p : α → Bool) (items : List α) :
    items.countP p = totalSize (items.map fun a => if p a then 1 else 0) := by
  induction items with
  | nil => rfl
  | cons a items ih => rw [List.countP_cons, List.map_cons, totalSize_cons, ih, Nat.add_comm]

end Number

end Untangle
