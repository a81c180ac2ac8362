/-
  Untangle.Entries

  Tables in the order in which their keys first came up. Putting a value under a key
  that is there already changes the value and not its place.
-/

namespace Untangle.Entries

variable {κ α : Type} [BEq κ]

/-- The table with the value under a key (none, if the key is new) taken through a
    function. -/
def update (key : κ) (f : Option α → α) : List (κ × α) → List (κ × α)
  | [] => [(key, f none)]
  | (k, v) :: rest => if k == key then (k, f (some v)) :: rest else (k, v) :: update key f rest

/-- The table with a value under a key. -/
def put (key : κ) (v : α) (entries : List (κ × α)) : List (κ × α) :=
  update key (fun _ => v) entries

/-- A key under which only the key itself is found. -/
def Sole (key : κ) : Prop :=
  ∀ k, ((k == key) = true ↔ k = key) ∧ ((key == k) = true ↔ key = k)

theorem sole [LawfulBEq κ] (key : κ) : Sole key :=
  fun _ => ⟨beq_iff_eq, beq_iff_eq⟩

/-! ## Looking up after an update -/

theorem Sole.lookup_update_self {key : κ} (h : Sole key) (f : Option α → α)
    (entries : List (κ × α)) :
    (update key f entries).lookup key = some (f (entries.lookup key)) := by
  have hself : (key == key) = true := (h key).1.mpr rfl
  induction entries with
  | nil => simp [update, List.lookup_cons, hself]
  | cons e rest ih =>
    obtain ⟨k, v⟩ := e
    by_cases hk : k = key
    · subst hk
      simp [update, List.lookup_cons, hself]
    · have hback : (k == key) = false := Bool.eq_false_iff.mpr fun hsame => hk ((h k).1.mp hsame)
      have hforth : (key == k) = false :=
        Bool.eq_false_iff.mpr fun hsame => hk ((h k).2.mp hsame).symm
      simp [update, hback, List.lookup_cons, hforth, ih]

theorem Sole.lookup_update_of_ne {key other : κ} (h : Sole other) (f : Option α → α)
    (entries : List (κ × α)) (hne : other ≠ key) :
    (update key f entries).lookup other = entries.lookup other := by
  have hapart (k : κ) (hk : other ≠ k) : (other == k) = false :=
    Bool.eq_false_iff.mpr fun hsame => hk ((h k).2.mp hsame)
  induction entries with
  | nil => simp [update, List.lookup_cons, hapart key hne]
  | cons e rest ih =>
    obtain ⟨k, v⟩ := e
    by_cases hk : other = k
    · subst hk
      simp [update, hapart key hne, List.lookup_cons, (h other).1.mpr rfl]
    · unfold update
      split <;> simp [List.lookup_cons, hapart k hk, ih]

/-- Looking up a key after an update gives what the function made of the value before. -/
theorem lookup_update_self [LawfulBEq κ] (key : κ) (f : Option α → α) (entries : List (κ × α)) :
    (update key f entries).lookup key = some (f (entries.lookup key)) :=
  (sole key).lookup_update_self f entries

/-- An update leaves the values under other keys alone. -/
theorem lookup_update_of_ne [LawfulBEq κ] {key other : κ} (f : Option α → α)
    (entries : List (κ × α)) (h : other ≠ key) :
    (update key f entries).lookup other = entries.lookup other :=
  (sole other).lookup_update_of_ne f entries h

/-! ## The entries of a table after an update -/

/-- An entry is as it was, or has a value that the function made, under the key itself or a key
    that was there. -/
theorem mem_update {key : κ} {f : Option α → α} {entries : List (κ × α)} {e : κ × α}
    (h : e ∈ update key f entries) :
    e ∈ entries ∨ (e.1 = key ∨ e.1 ∈ entries.map (·.1)) ∧ ∃ v, e.2 = f v := by
  induction entries with
  | nil =>
    rw [List.mem_singleton.mp h]
    exact Or.inr ⟨Or.inl rfl, none, rfl⟩
  | cons first rest ih =>
    obtain ⟨k, v⟩ := first
    unfold update at h
    split at h
    · rcases List.mem_cons.mp h with rfl | h
      · exact Or.inr ⟨Or.inr List.mem_cons_self, some v, rfl⟩
      · exact Or.inl (List.mem_cons_of_mem _ h)
    · rcases List.mem_cons.mp h with rfl | h
      · exact Or.inl List.mem_cons_self
      · exact (ih h).imp (List.mem_cons_of_mem _) fun ⟨hkey, hvalue⟩ =>
          ⟨hkey.imp_right (List.mem_cons_of_mem _), hvalue⟩

/-- A key that is new comes behind the others. -/
theorem Sole.keys_update {key : κ} (h : Sole key) (f : Option α → α) (entries : List (κ × α)) :
    key ∈ entries.map (·.1) ∧ (update key f entries).map (·.1) = entries.map (·.1)
    ∨ key ∉ entries.map (·.1)
      ∧ (update key f entries).map (·.1) = entries.map (·.1) ++ [key] := by
  induction entries with
  | nil => exact Or.inr ⟨List.not_mem_nil, rfl⟩
  | cons e rest ih =>
    obtain ⟨k, v⟩ := e
    by_cases hk : k = key
    · subst hk
      exact Or.inl ⟨List.mem_cons_self, by simp [update, (h k).1.mpr rfl]⟩
    · have hback : (k == key) = false := Bool.eq_false_iff.mpr fun hsame => hk ((h k).1.mp hsame)
      have hkeys : (update key f ((k, v) :: rest)).map (·.1)
          = k :: (update key f rest).map (·.1) := by simp [update, hback]
      rw [hkeys, List.map_cons]
      refine ih.imp (fun ⟨hin, hsame⟩ => ⟨List.mem_cons_of_mem _ hin, by rw [hsame]⟩)
        fun ⟨hnot, hnew⟩ => ⟨fun hin => ?_, by rw [hnew, List.cons_append]⟩
      exact (List.mem_cons.mp hin).elim (fun heq => hk heq.symm) hnot

/-- No key comes up twice. -/
theorem Sole.nodup_update {key : κ} (h : Sole key) (f : Option α → α) {entries : List (κ × α)}
    (hnodup : (entries.map (·.1)).Nodup) : ((update key f entries).map (·.1)).Nodup := by
  rcases h.keys_update f entries with ⟨-, hkeys⟩ | ⟨hnew, hkeys⟩
  · rw [hkeys]
    exact hnodup
  · rw [hkeys]
    refine List.nodup_append.mpr ⟨hnodup, by simp, fun a ha b hb heq => hnew ?_⟩
    rw [List.mem_singleton.mp hb] at heq
    exact heq ▸ ha

end Untangle.Entries
