/-
  Untangle.Proofs.Registry

  Which members a registry holds under which keys. A member belongs to the heads that it reaches
  through members that are no heads (`Registry.Reaches`), and is entered into the tables that
  these heads use. After any definitions, a table says for each key which of the members entered
  into it is the latest with that key, and nothing else (`Grown.tables_exact`). A head has a table
  of its own and shares it with no one, as long as no head has the name of the base
  (`Grown.families_exact`). A head of that name gets none, and what is defined below it goes into
  the table of someone else (`namesake_shares`).
-/
import Mathlib
import Untangle.Proofs.Lists
import Untangle.Registry.Basic

namespace Untangle

/-! ## Lineages -/

/-- An order that agrees with some others holds nothing else. -/
theorem Lineage.mem_of_merge? {orders : List (List Nat)} {merged : List Nat}
    (h : merge? orders = some merged) {n : Nat} (hn : n ∈ merged) :
    ∃ order ∈ orders, n ∈ order := by
  induction orders using merge?.induct generalizing merged with
  | case1 orders hempty =>
    rw [merge?, if_pos hempty] at h
    cases h
    cases hn
  | case2 orders hsome hnone =>
    rw [merge?, if_neg hsome] at h
    split at h
    · cases h
    · rename_i a ha
      cases hnone.symm.trans ha
  | case3 orders hsome a ha ih =>
    rw [merge?, if_neg hsome] at h
    split at h
    · cases h
    · rename_i a' ha'
      cases ha.symm.trans ha'
      obtain ⟨rest, hrest, rfl⟩ := Option.map_eq_some_iff.mp h
      rcases List.mem_cons.mp hn with rfl | hn
      · obtain ⟨order, horder, hhead⟩ := List.mem_filterMap.mp (List.mem_of_find?_eq_some ha)
        exact ⟨order, horder, List.mem_of_mem_head? hhead⟩
      · obtain ⟨order, horder, hmem⟩ := ih hrest hn
        obtain ⟨order, horder', rfl⟩ := List.mem_map.mp horder
        refine ⟨order, horder', ?_⟩
        unfold behead at hmem
        split at hmem
        · exact List.mem_of_mem_tail hmem
        · exact hmem

namespace Registry

variable {r r' : Registry}

/-! ## Families -/

/-- A member reaches another one through members that are no heads. -/
inductive Reaches (r : Registry) : Nat → Nat → Prop where
  | parent {n p : Nat} {m : Member} (hm : r.members[n]? = some m) (hp : p ∈ m.parents) :
      Reaches r n p
  | through {n p a : Nat} {m : Member} (hm : r.members[n]? = some m) (hp : p ∈ m.parents)
      (hhead : r.isHead p = false) (h : Reaches r p a) : Reaches r n a

/-- A member belongs to a head that uses the table of a member. -/
def Enrolled (r : Registry) (owner n : Nat) : Prop :=
  ∃ head, r.isHead head = true ∧ r.Reaches n head ∧ r.tableOwner? head = some owner

/-- Of the members of a kind that have a key, the one that was defined last. -/
structure Latest (r : Registry) (kind : Nat → Prop) (key : String) (n : Nat) : Prop where
  isOne : kind n
  hasKey : normalizeKey (r.keyOf n) = .ok key
  isLast : ∀ k, kind k → normalizeKey (r.keyOf k) = .ok key → k ≤ n

/-- The registries that definitions make, one after the other, each below members that are
    there. -/
inductive Grown : Registry → Prop where
  | initial : Grown initial
  | define {r r' : Registry} {name : String} {parents : List Nat} {statedKey : Option Value}
      {methods : List (String × Bool)} (h : Grown r)
      (hparents : ∀ p ∈ parents, p < r.members.length)
      (hdefine : r.define name parents statedKey methods = .ok r') : Grown r'

/-- What holds of every registry that definitions make. -/
structure Sound (r : Registry) : Prop where
  based : base < r.members.length
  parents : ∀ n (m : Member), r.members[n]? = some m → ∀ p ∈ m.parents, p < n
  lineage : ∀ n (m : Member), r.members[n]? = some m →
    ∃ above, m.lineage = n :: above ∧ ∀ a ∈ above, a < n
  families : ∀ n (m : Member), r.members[n]? = some m → ∀ head, head ∈ m.families
    ↔ r.isHead head = true ∧ r.Reaches n head
  owners : ∀ n, (r.tables.lookup n).isSome ↔ n = base ∨ r.isHead n = true ∧ r.nameOf n ≠ baseName
  exact : ∀ owner table, r.tables.lookup owner = some table → (table.map (·.1)).Nodup
    ∧ ∀ key n, table.lookup key = some n ↔ r.Latest (r.Enrolled owner) key n

theorem isHead_iff {n : Nat} :
    r.isHead n = true ↔ ∃ m, r.members[n]? = some m ∧ base ∈ m.parents := by
  unfold isHead
  cases r.members[n]? <;> simp

theorem lt_of_isHead {n : Nat} (h : r.isHead n = true) : n < r.members.length := by
  obtain ⟨m, hm, -⟩ := isHead_iff.mp h
  exact (List.getElem?_eq_some_iff.mp hm).1

/-- What is reached was there before. -/
theorem Sound.lt_of_reaches (h : r.Sound) {n a : Nat} (hreach : r.Reaches n a) : a < n := by
  induction hreach with
  | parent hm hp => exact h.parents _ _ hm _ hp
  | through hm hp _ _ ih => exact ih.trans (h.parents _ _ hm _ hp)

theorem Sound.mem_lineage_le (h : r.Sound) {n a : Nat} (ha : a ∈ r.lineage n) :
    a ≤ n ∧ n < r.members.length := by
  unfold Registry.lineage at ha
  cases hm : r.members[n]? with
  | none => rw [hm] at ha; cases ha
  | some m =>
    rw [hm] at ha
    obtain ⟨above, hlineage, habove⟩ := h.lineage n m hm
    have ha' : a ∈ m.lineage := ha
    rw [hlineage] at ha'
    refine ⟨?_, (List.getElem?_eq_some_iff.mp hm).1⟩
    rcases List.mem_cons.mp ha' with rfl | ha'
    · exact Nat.le_refl a
    · exact (habove a ha').le

/-- A member has the heads among its parents, and those of its other parents. -/
theorem Sound.mem_familiesOf (h : r.Sound) {parents : List Nat}
    (hparents : ∀ p ∈ parents, p < r.members.length) {head : Nat} :
    head ∈ r.familiesOf parents ↔ r.isHead head = true
      ∧ ∃ p ∈ parents, p = head ∨ r.isHead p = false ∧ r.Reaches p head := by
  have hmember (p : Nat) (hp : p ∈ parents) : ∃ m, r.members[p]? = some m :=
    ⟨_, List.getElem?_eq_getElem (hparents p hp)⟩
  unfold familiesOf
  rw [List.mem_flatMap]
  constructor
  · rintro ⟨p, hp, hmem⟩
    split at hmem
    · rename_i hhead
      rw [List.mem_singleton.mp hmem]
      exact ⟨hhead, p, hp, Or.inl rfl⟩
    · rename_i hhead
      obtain ⟨m, hm⟩ := hmember p hp
      rw [hm] at hmem
      obtain ⟨hishead, hreach⟩ := (h.families p m hm head).mp hmem
      exact ⟨hishead, p, hp, Or.inr ⟨Bool.eq_false_iff.mpr hhead, hreach⟩⟩
  · rintro ⟨hishead, p, hp, hway⟩
    refine ⟨p, hp, ?_⟩
    rcases hway with rfl | ⟨hhead, hreach⟩
    · rw [if_pos hishead]
      exact List.mem_singleton_self p
    · obtain ⟨m, hm⟩ := hmember p hp
      rw [if_neg (Bool.eq_false_iff.mp hhead), hm]
      exact (h.families p m hm head).mpr ⟨hishead, hreach⟩

/-! ## What one more member does to a table -/

/-- A table after a member has been entered, if it belongs there. -/
structure Takes (belongs : Prop) (key : Except Misuse String) (n : Nat)
    (table table' : List (String × Nat)) : Prop where
  frame : ¬ belongs → table' = table
  nodup : (table.map (·.1)).Nodup → (table'.map (·.1)).Nodup
  lookup : ∀ k m, table'.lookup k = some m
    ↔ (belongs ∧ key = .ok k ∧ m = n) ∨ (¬ (belongs ∧ key = .ok k) ∧ table.lookup k = some m)

theorem Takes.refl {belongs : Prop} (hnot : ¬ belongs) (key : Except Misuse String) (n : Nat)
    (table : List (String × Nat)) : Takes belongs key n table table where
  frame _ := rfl
  nodup := id
  lookup k m := by simp [hnot]

theorem Takes.trans {p q : Prop} {key : Except Misuse String} {n : Nat}
    {table table' table'' : List (String × Nat)} (h : Takes p key n table table')
    (h' : Takes q key n table' table'') : Takes (p ∨ q) key n table table'' where
  frame hnot := (h'.frame fun hq => hnot (Or.inr hq)).trans (h.frame fun hp => hnot (Or.inl hp))
  nodup hnodup := h'.nodup (h.nodup hnodup)
  lookup k m := by
    rw [h'.lookup, h.lookup]
    by_cases hkey : key = .ok k
    · by_cases hp : p <;> by_cases hq : q <;> simp [hp, hq, hkey]
    · simp [hkey]

theorem takes_put {key : String} (n : Nat) (table : List (String × Nat)) :
    Takes True (.ok key) n table (Entries.put key n table) where
  frame hnot := absurd trivial hnot
  nodup := (Entries.sole key).nodup_update _
  lookup k m := by
    by_cases hk : k = key
    · subst hk
      unfold Entries.put
      rw [Entries.lookup_update_self]
      simp [eq_comm]
    · unfold Entries.put
      rw [Entries.lookup_update_of_ne _ _ hk]
      have hne : key ≠ k := fun heq => hk heq.symm
      simp [hne]

/-- Which tables there are decides which one is used. -/
theorem tableOwner?_congr {n : Nat} (hlineage : r'.lineage n = r.lineage n)
    (h : ∀ a ∈ r.lineage n, (r'.tables.lookup a).isSome = (r.tables.lookup a).isSome) :
    r'.tableOwner? n = r.tableOwner? n := by
  unfold tableOwner?
  rw [hlineage]
  generalize r.lineage n = lineage at h
  induction lineage with
  | nil => rfl
  | cons a lineage ih =>
    rw [List.find?_cons, List.find?_cons, h a List.mem_cons_self,
      ih fun b hb => h b (List.mem_cons_of_mem _ hb)]

theorem keyOf_congr (h : r'.members = r.members) (n : Nat) : r'.keyOf n = r.keyOf n := by
  unfold keyOf ask lineage nameOf
  rw [h]

/-- A registry in which a member has been entered into the tables that some heads use. -/
structure Enters (r : Registry) (heads : List Nat) (n : Nat) (r' : Registry) : Prop where
  members : r'.members = r.members
  owners : ∀ owner, (r'.tables.lookup owner).isSome = (r.tables.lookup owner).isSome
  tables : ∀ owner table, r.tables.lookup owner = some table →
    ∃ table', r'.tables.lookup owner = some table'
      ∧ Takes (∃ head ∈ heads, r.tableOwner? head = some owner) (normalizeKey (r.keyOf n)) n
        table table'

/-- Entering a member into the table that another one uses. -/
theorem register_enters {head n : Nat} (hne : head ≠ n) (h : r.register head n = .ok r') :
    Enters r [head] n r' := by
  unfold register at h
  cases howner : r.tableOwner? head with
  | none =>
    rw [howner] at h
    cases h
    refine ⟨rfl, fun _ => rfl, fun owner table ht => ⟨table, ht, .refl ?_ _ _ _⟩⟩
    rintro ⟨head', hhead', hsome⟩
    rw [List.mem_singleton.mp hhead', howner] at hsome
    cases hsome
  | some owner =>
    rw [howner] at h
    dsimp only at h
    rw [if_neg (by simp [Ne.symm hne])] at h
    obtain ⟨key, hkey, hrest⟩ := bind_eq_ok.mp h
    cases hrest
    have hthere : (r.tables.lookup owner).isSome := by
      simpa using List.find?_some howner
    obtain ⟨table, htable⟩ := Option.isSome_iff_exists.mp hthere
    refine ⟨rfl, fun o => ?_, fun o t ht => ?_⟩
    · by_cases ho : o = owner
      · subst ho
        dsimp only
        rw [Entries.lookup_update_self, htable]
        rfl
      · exact congrArg _ (Entries.lookup_update_of_ne _ _ ho)
    · by_cases ho : o = owner
      · subst ho
        cases ht.symm.trans htable
        refine ⟨_, Entries.lookup_update_self _ _ _, ?_⟩
        rw [ht, hkey]
        have hall : (∃ head' ∈ [head], r.tableOwner? head' = some o) = True := by simp [howner]
        rw [hall]
        exact takes_put n _
      · refine ⟨t, (Entries.lookup_update_of_ne _ _ ho).trans ht, .refl ?_ _ _ _⟩
        rintro ⟨head', hhead', hsome⟩
        rw [List.mem_singleton.mp hhead', howner] at hsome
        exact ho (Option.some.inj hsome).symm

/-- Entering a member into the tables that some heads use, one after the other. -/
theorem foldlM_enters {heads : List Nat} {n : Nat} (hne : ∀ head ∈ heads, head ≠ n)
    (h : heads.foldlM (fun r head => r.register head n) r = .ok r') : Enters r heads n r' := by
  induction heads generalizing r with
  | nil =>
    cases h
    exact ⟨rfl, fun _ => rfl, fun owner table ht => ⟨table, ht, .refl (by simp) _ _ _⟩⟩
  | cons head heads ih =>
    rw [List.foldlM_cons] at h
    obtain ⟨r₁, hfirst, hrest⟩ := bind_eq_ok.mp h
    have hfirst' := register_enters (hne head List.mem_cons_self) hfirst
    have hrest' := ih (fun head' hhead' => hne head' (List.mem_cons_of_mem _ hhead')) hrest
    have howner (head' : Nat) : r₁.tableOwner? head' = r.tableOwner? head' :=
      tableOwner?_congr (by unfold lineage; rw [hfirst'.members]) fun a _ => hfirst'.owners a
    refine ⟨hrest'.members.trans hfirst'.members,
      fun owner => (hrest'.owners owner).trans (hfirst'.owners owner), fun owner table ht => ?_⟩
    obtain ⟨table₁, ht₁, htakes₁⟩ := hfirst'.tables owner table ht
    obtain ⟨table', ht', htakes'⟩ := hrest'.tables owner table₁ ht₁
    refine ⟨table', ht', ?_⟩
    rw [keyOf_congr hfirst'.members] at htakes'
    have hall : (∃ head' ∈ head :: heads, r.tableOwner? head' = some owner)
        ↔ (∃ head' ∈ [head], r.tableOwner? head' = some owner)
          ∨ ∃ head' ∈ heads, r₁.tableOwner? head' = some owner := by
      simp [howner]
    rw [hall]
    exact htakes₁.trans htakes'

/-! ## Definitions -/

section Added

variable {m : Member} (hmembers : r'.members = r.members ++ [m])
include hmembers

theorem added_old {n : Nat} (hn : n < r.members.length) : r'.members[n]? = r.members[n]? := by
  rw [hmembers]
  exact List.getElem?_append_left hn

theorem added_new : r'.members[r.members.length]? = some m := by
  rw [hmembers]
  exact List.getElem?_concat_length

theorem added_cases {n : Nat} {m' : Member} (h : r'.members[n]? = some m') :
    (n < r.members.length ∧ r.members[n]? = some m') ∨ n = r.members.length ∧ m' = m := by
  rcases Nat.lt_trichotomy n r.members.length with hlt | rfl | hgt
  · exact Or.inl ⟨hlt, (added_old hmembers hlt).symm.trans h⟩
  · rw [added_new hmembers] at h
    cases h
    exact Or.inr ⟨rfl, rfl⟩
  · have hbound := (List.getElem?_eq_some_iff.mp h).1
    rw [hmembers, List.length_append, List.length_singleton] at hbound
    omega

theorem added_lineage {n : Nat} (hn : n < r.members.length) : r'.lineage n = r.lineage n := by
  unfold lineage
  rw [added_old hmembers hn]

theorem added_nameOf {n : Nat} (hn : n < r.members.length) : r'.nameOf n = r.nameOf n := by
  unfold nameOf
  rw [added_old hmembers hn]

theorem added_isHead {n : Nat} (hn : n < r.members.length) : r'.isHead n = r.isHead n := by
  unfold isHead
  rw [added_old hmembers hn]

theorem Sound.added_keyOf (h : r.Sound) {n : Nat} (hn : n < r.members.length) :
    r'.keyOf n = r.keyOf n := by
  unfold keyOf ask
  rw [added_lineage hmembers hn, added_nameOf hmembers hn]
  congr 1
  have hall : ∀ a ∈ r.lineage n, a < r.members.length := fun a ha => by
    obtain ⟨hle, hlt⟩ := h.mem_lineage_le ha
    omega
  generalize r.lineage n = lineage at hall
  induction lineage with
  | nil => rfl
  | cons a lineage ih =>
    rw [List.findSome?_cons, List.findSome?_cons, added_old hmembers (hall a List.mem_cons_self),
      ih fun b hb => hall b (List.mem_cons_of_mem _ hb)]

/-- What a member reaches stays, and nothing is added to it. -/
theorem Sound.added_reaches (h : r.Sound) {n a : Nat} (hn : n < r.members.length) :
    r'.Reaches n a ↔ r.Reaches n a := by
  constructor
  · intro hreach
    induction hreach with
    | parent hm hp => exact .parent ((added_old hmembers hn).symm.trans hm) hp
    | through hm hp hhead _ ih =>
      rw [added_old hmembers hn] at hm
      have hlt := (h.parents _ _ hm _ hp).trans hn
      exact .through hm hp ((added_isHead hmembers hlt).symm.trans hhead) (ih hlt)
  · intro hreach
    induction hreach with
    | parent hm hp => exact .parent ((added_old hmembers hn).trans hm) hp
    | through hm hp hhead _ ih =>
      have hlt := (h.parents _ _ hm _ hp).trans hn
      exact .through ((added_old hmembers hn).trans hm) hp
        ((added_isHead hmembers hlt).trans hhead) (ih hlt)

/-- What the new member reaches. -/
theorem Sound.added_reaches_new (h : r.Sound) (hparents : ∀ p ∈ m.parents, p < r.members.length)
    {a : Nat} : r'.Reaches r.members.length a
      ↔ ∃ p ∈ m.parents, p = a ∨ r.isHead p = false ∧ r.Reaches p a := by
  constructor
  · intro hreach
    cases hreach with
    | parent hm hp =>
      cases (added_new hmembers).symm.trans hm
      exact ⟨a, hp, Or.inl rfl⟩
    | through hm hp hhead hrest =>
      cases (added_new hmembers).symm.trans hm
      have hlt := hparents _ hp
      rw [added_isHead hmembers hlt] at hhead
      exact ⟨_, hp, Or.inr ⟨hhead, (h.added_reaches hmembers hlt).mp hrest⟩⟩
  · rintro ⟨p, hp, rfl | ⟨hhead, hreach⟩⟩
    · exact .parent (added_new hmembers) hp
    · have hlt := hparents _ hp
      exact .through (added_new hmembers) hp ((added_isHead hmembers hlt).trans hhead)
        ((h.added_reaches hmembers hlt).mpr hreach)

theorem Sound.lt_of_reached_new (h : r.Sound) (hparents : ∀ p ∈ m.parents, p < r.members.length)
    {a : Nat} (hreach : r'.Reaches r.members.length a) : a < r.members.length := by
  obtain ⟨p, hp, rfl | ⟨-, hrest⟩⟩ := (h.added_reaches_new hmembers hparents).mp hreach
  · exact hparents p hp
  · exact (h.lt_of_reaches hrest).trans (hparents p hp)

end Added

/-- A registry with one more member, which is in the tables that its families use and keeps a
    table of its own if it is the head of a family. -/
structure Adds (r : Registry) (m : Member) (r' : Registry) : Prop where
  members : r'.members = r.members ++ [m]
  parents : ∀ p ∈ m.parents, p < r.members.length
  lineage : ∃ above, m.lineage = r.members.length :: above ∧ ∀ a ∈ above, a < r.members.length
  families : m.families = r.familiesOf m.parents
  old : ∀ owner table, r.tables.lookup owner = some table →
    ∃ table', r'.tables.lookup owner = some table'
      ∧ Takes (∃ head ∈ m.families, r.tableOwner? head = some owner)
        (normalizeKey (r'.keyOf r.members.length)) r.members.length table table'
  new : ∀ owner, r.tables.lookup owner = none → r'.tables.lookup owner
    = if owner = r.members.length ∧ base ∈ m.parents ∧ m.name ≠ baseName then some [] else none

theorem Sound.lookup_none (h : r.Sound) {n : Nat} (hn : r.members.length ≤ n) :
    r.tables.lookup n = none := by
  by_contra hsome
  rcases (h.owners n).mp (Option.ne_none_iff_isSome.mp hsome) with rfl | ⟨hhead, -⟩
  · exact absurd h.based (Nat.not_lt.mpr hn)
  · exact absurd (lt_of_isHead hhead) (Nat.not_lt.mpr hn)

/-- A new member comes after all that its lineage leads to. -/
theorem Sound.lt_of_merged (h : r.Sound) {parents above : List Nat}
    (hparents : ∀ p ∈ parents, p < r.members.length)
    (habove : Lineage.merge? (parents.map r.lineage ++ [parents]) = some above) {a : Nat}
    (ha : a ∈ above) : a < r.members.length := by
  obtain ⟨order, horder, hmem⟩ := Lineage.mem_of_merge? habove ha
  rcases List.mem_append.mp horder with horder | horder
  · obtain ⟨p, -, rfl⟩ := List.mem_map.mp horder
    obtain ⟨hle, hlt⟩ := h.mem_lineage_le hmem
    exact hle.trans_lt hlt
  · rw [List.mem_singleton.mp horder] at hmem
    exact hparents a hmem

theorem lookup_concat_empty (tables : List (Nat × List (String × Nat))) (n owner : Nat) :
    (tables ++ [(n, [])]).lookup owner
      = (tables.lookup owner).or (if owner = n then some [] else none) := by
  rw [List.lookup_append]
  by_cases ho : owner = n
  · simp [ho]
  · simp [List.lookup_cons, beq_false_of_ne ho, ho]

/-- A definition adds one member. -/
theorem Sound.define_adds (h : r.Sound) {name : String} {parents : List Nat}
    {statedKey : Option Value} {methods : List (String × Bool)}
    (hparents : ∀ p ∈ parents, p < r.members.length)
    (hdefine : r.define name parents statedKey methods = .ok r') :
    ∃ m, m.name = name ∧ m.parents = parents ∧ Adds r m r' := by
  unfold define at hdefine
  dsimp only at hdefine
  split at hdefine
  · cases hdefine
  rename_i above habove
  obtain ⟨entered, henter, hrest⟩ := bind_eq_ok.mp hdefine
  have hfamilies (head : Nat) (hhead : head ∈ r.familiesOf parents) : head < r.members.length :=
    lt_of_isHead ((h.mem_familiesOf hparents).mp hhead).1
  have henters := foldlM_enters (fun head hhead => (hfamilies head hhead).ne) henter
  let m : Member :=
    { name, parents, statedKey, lineage := r.members.length :: above
      families := r.familiesOf parents, methods, missing := r.missingOf parents above methods }
  have hmembers : entered.members = r.members ++ [m] := henters.members
  -- The new member keeps a table only if it is the head of a family.
  have hlast : r'.members = entered.members ∧ ∀ owner, r'.tables.lookup owner
      = (entered.tables.lookup owner).or
        (if owner = r.members.length ∧ base ∈ parents ∧ name ≠ baseName then some []
          else none) := by
    by_cases hhead : base ∈ parents ∧ name ≠ baseName
    · rw [if_pos (by simpa using hhead)] at hrest
      cases hrest
      refine ⟨rfl, fun owner => (lookup_concat_empty _ _ _).trans ?_⟩
      simp only [hhead, ne_eq, not_false_eq_true, and_true]
    · rw [if_neg (by simpa using hhead)] at hrest
      cases hrest
      exact ⟨rfl, fun owner => by rw [if_neg fun hall => hhead hall.2, Option.or_none]⟩
  have howner (head : Nat) (hhead : head ∈ r.familiesOf parents) :
      tableOwner? { r with members := r.members ++ [m] } head = r.tableOwner? head :=
    tableOwner?_congr (added_lineage rfl (hfamilies head hhead)) fun _ _ => rfl
  refine ⟨m, rfl, rfl, hlast.1.trans hmembers, hparents, ⟨above, rfl, fun _ ha => ?_⟩, rfl,
    fun owner table ht => ?_, fun owner hnone => ?_⟩
  · exact h.lt_of_merged hparents habove ha
  · obtain ⟨table', ht', htakes⟩ := henters.tables owner table ht
    refine ⟨table', by rw [hlast.2, ht']; rfl, ?_⟩
    have hkey : r'.keyOf r.members.length = entered.keyOf r.members.length :=
      keyOf_congr hlast.1 _
    have hkey' := keyOf_congr henters.members r.members.length
    rw [hkey, hkey']
    have hall : (∃ head ∈ r.familiesOf parents, r.tableOwner? head = some owner)
        ↔ ∃ head ∈ r.familiesOf parents,
          tableOwner? { r with members := r.members ++ [m] } head = some owner :=
      exists_congr fun head => and_congr_right fun hhead => by rw [howner head hhead]
    rw [show m.families = r.familiesOf parents from rfl, hall]
    exact htakes
  · have hsame : (entered.tables.lookup owner).isSome = (r.tables.lookup owner).isSome :=
      henters.owners owner
    rw [hnone] at hsame
    rw [hlast.2, Option.isNone_iff_eq_none.mp (Option.isSome_eq_false_iff.mp hsame),
      Option.none_or]

theorem Adds.isSome_lookup {m : Member} (hadds : Adds r m r') {n : Nat}
    (hn : n < r.members.length) :
    (r'.tables.lookup n).isSome = (r.tables.lookup n).isSome := by
  cases hlookup : r.tables.lookup n with
  | none => rw [hadds.new n hlookup, if_neg fun hall => hn.ne hall.1]
  | some table =>
    obtain ⟨table', ht', -⟩ := hadds.old n table hlookup
    rw [ht']
    rfl

/-- The table that a head uses stays the same one. -/
theorem Sound.added_tableOwner? (h : r.Sound) {m : Member} (hadds : Adds r m r') {n : Nat}
    (hn : n < r.members.length) : r'.tableOwner? n = r.tableOwner? n :=
  tableOwner?_congr (added_lineage hadds.members hn) fun _ ha =>
    hadds.isSome_lookup ((h.mem_lineage_le ha).1.trans_lt hn)

theorem lookup_isSome_of_tableOwner? {n owner : Nat} (h : r.tableOwner? n = some owner) :
    (r.tables.lookup owner).isSome := by
  simpa using List.find?_some h

theorem lt_of_enrolled {owner n : Nat} (hn : r.Enrolled owner n) :
    n < r.members.length := by
  obtain ⟨head, -, hreach, -⟩ := hn
  cases hreach with
  | parent hm => exact (List.getElem?_eq_some_iff.mp hm).1
  | through hm => exact (List.getElem?_eq_some_iff.mp hm).1

/-- Who is entered into a table after a member was added. -/
theorem Sound.added_enrolled (h : r.Sound) {m : Member} (hadds : Adds r m r') {owner n : Nat} :
    r'.Enrolled owner n ↔ r.Enrolled owner n
      ∨ n = r.members.length ∧ ∃ head ∈ m.families, r.tableOwner? head = some owner := by
  have hmembers := hadds.members
  have hfamilies (head : Nat) : head ∈ m.families ↔ r.isHead head = true
      ∧ r'.Reaches r.members.length head := by
    rw [hadds.families, h.mem_familiesOf hadds.parents,
      h.added_reaches_new hmembers hadds.parents]
  constructor
  · rintro ⟨head, hhead, hreach, howner⟩
    obtain ⟨m', hm'⟩ : ∃ m', r'.members[n]? = some m' := by
      cases hreach with
      | parent hm => exact ⟨_, hm⟩
      | through hm => exact ⟨_, hm⟩
    rcases added_cases hmembers hm' with ⟨hn, -⟩ | ⟨rfl, -⟩
    · rw [h.added_reaches hmembers hn] at hreach
      have hlt := (h.lt_of_reaches hreach).trans hn
      rw [added_isHead hmembers hlt] at hhead
      rw [h.added_tableOwner? hadds hlt] at howner
      exact Or.inl ⟨head, hhead, hreach, howner⟩
    · have hlt := h.lt_of_reached_new hmembers hadds.parents hreach
      rw [added_isHead hmembers hlt] at hhead
      rw [h.added_tableOwner? hadds hlt] at howner
      exact Or.inr ⟨rfl, head, (hfamilies head).mpr ⟨hhead, hreach⟩, howner⟩
  · rintro (henrolled | ⟨rfl, head, hmem, howner⟩)
    · have hn := lt_of_enrolled henrolled
      obtain ⟨head, hhead, hreach, howner⟩ := henrolled
      have hlt := (h.lt_of_reaches hreach).trans hn
      exact ⟨head, (added_isHead hmembers hlt).trans hhead,
        (h.added_reaches hmembers hn).mpr hreach, (h.added_tableOwner? hadds hlt).trans howner⟩
    · obtain ⟨hhead, hreach⟩ := (hfamilies head).mp hmem
      have hlt := lt_of_isHead hhead
      exact ⟨head, (added_isHead hmembers hlt).trans hhead, hreach,
        (h.added_tableOwner? hadds hlt).trans howner⟩

/-- Of the members in a table the latest ones are known when those before are. -/
theorem Sound.added_latest (h : r.Sound) {m : Member} (hadds : Adds r m r') {owner : Nat}
    {key : String} {n : Nat} {belongs : Prop}
    (hbelongs : belongs ↔ ∃ head ∈ m.families, r.tableOwner? head = some owner) :
    r'.Latest (r'.Enrolled owner) key n
      ↔ (belongs ∧ normalizeKey (r'.keyOf r.members.length) = .ok key ∧ n = r.members.length)
        ∨ (¬ (belongs ∧ normalizeKey (r'.keyOf r.members.length) = .ok key)
          ∧ r.Latest (r.Enrolled owner) key n) := by
  have henrolled (k : Nat) : r'.Enrolled owner k
      ↔ r.Enrolled owner k ∨ k = r.members.length ∧ belongs := by
    rw [h.added_enrolled hadds, hbelongs]
  have hkey (k : Nat) (hk : r.Enrolled owner k) : r'.keyOf k = r.keyOf k :=
    h.added_keyOf hadds.members (lt_of_enrolled hk)
  constructor
  · rintro ⟨hone, hhas, hlast⟩
    by_cases hnew : belongs ∧ normalizeKey (r'.keyOf r.members.length) = .ok key
    · -- The new member has the key, and none comes after it.
      left
      refine ⟨hnew.1, hnew.2, Nat.le_antisymm ?_
        (hlast _ ((henrolled _).mpr (Or.inr ⟨rfl, hnew.1⟩)) hnew.2)⟩
      rcases (henrolled n).mp hone with hold | ⟨rfl, -⟩
      · exact (lt_of_enrolled hold).le
      · exact Nat.le_refl _
    · right
      rcases (henrolled n).mp hone with hold | ⟨rfl, hthere⟩
      · refine ⟨hnew, hold, hkey n hold ▸ hhas, fun k hk hhas' => ?_⟩
        exact hlast k ((henrolled k).mpr (Or.inl hk)) (hkey k hk ▸ hhas')
      · exact absurd ⟨hthere, hhas⟩ hnew
  · rintro (⟨hthere, hhas, rfl⟩ | ⟨hnew, hone, hhas, hlast⟩)
    · refine ⟨(henrolled _).mpr (Or.inr ⟨rfl, hthere⟩), hhas, fun k hk _ => ?_⟩
      rcases (henrolled k).mp hk with hold | ⟨rfl, -⟩
      · exact (lt_of_enrolled hold).le
      · exact Nat.le_refl _
    · refine ⟨(henrolled n).mpr (Or.inl hone), (hkey n hone).symm ▸ hhas, fun k hk hhas' => ?_⟩
      rcases (henrolled k).mp hk with hold | ⟨rfl, hthere⟩
      · exact hlast k hold (hkey k hold ▸ hhas')
      · exact absurd ⟨hthere, hhas'⟩ hnew

/-- The families of a member are the heads that it reaches, also of the new one. -/
theorem Sound.added_families (h : r.Sound) {m : Member} (hadds : Adds r m r') {n : Nat}
    {m' : Member} (hm' : r'.members[n]? = some m') (head : Nat) :
    head ∈ m'.families ↔ r'.isHead head = true ∧ r'.Reaches n head := by
  have hmembers := hadds.members
  rcases added_cases hmembers hm' with ⟨hn, hold⟩ | ⟨rfl, rfl⟩
  · rw [h.families n m' hold head, h.added_reaches hmembers hn]
    refine and_congr_left fun hreach => ?_
    rw [added_isHead hmembers ((h.lt_of_reaches hreach).trans hn)]
  · rw [hadds.families, h.mem_familiesOf hadds.parents,
      ← h.added_reaches_new hmembers hadds.parents]
    refine and_congr_left fun hreach => ?_
    rw [added_isHead hmembers (h.lt_of_reached_new hmembers hadds.parents hreach)]

/-- Those that keep a table are known when those before are. -/
theorem Sound.added_owners (h : r.Sound) {m : Member} (hadds : Adds r m r') (n : Nat) :
    (r'.tables.lookup n).isSome ↔ n = base ∨ r'.isHead n = true ∧ r'.nameOf n ≠ baseName := by
  have hmembers := hadds.members
  rcases Nat.lt_or_ge n r.members.length with hn | hn
  · rw [added_isHead hmembers hn, added_nameOf hmembers hn, ← h.owners n, hadds.isSome_lookup hn]
  have hbase : n ≠ base := (h.based.trans_le hn).ne'
  rw [hadds.new n (h.lookup_none hn)]
  rcases hn.eq_or_lt with rfl | hgt
  · have hhead : r'.isHead r.members.length = m.parents.contains base := by
      unfold isHead
      rw [added_new hmembers]
      rfl
    have hname : r'.nameOf r.members.length = m.name := by
      unfold nameOf
      rw [added_new hmembers]
      rfl
    rw [hhead, hname]
    by_cases hkeeps : base ∈ m.parents ∧ m.name ≠ baseName
    · simp [hkeeps, hbase]
    · rw [if_neg fun hall => hkeeps hall.2]
      simpa [hbase] using fun hmem => not_and.mp hkeeps hmem
  · have hnone : r'.isHead n = false := by
      unfold isHead
      rw [List.getElem?_eq_none (by rw [hmembers, List.length_append]; exact hgt)]
      rfl
    rw [if_neg fun hall => hgt.ne' hall.1, hnone]
    simp [hbase]

/-- No one has been entered into a table that was not there before. -/
theorem Sound.not_added_enrolled (h : r.Sound) {m : Member} (hadds : Adds r m r') {owner n : Nat}
    (hlookup : r.tables.lookup owner = none) : ¬ r'.Enrolled owner n := by
  intro henrolled
  obtain ⟨head, howner⟩ : ∃ head, r.tableOwner? head = some owner := by
    obtain ⟨head, -, -, howner⟩ | ⟨-, head, -, howner⟩ := (h.added_enrolled hadds).mp henrolled
    · exact ⟨head, howner⟩
    · exact ⟨head, howner⟩
  have hthere := lookup_isSome_of_tableOwner? howner
  rw [hlookup] at hthere
  cases hthere

/-- Tables stay exact, and the new one is empty. -/
theorem Sound.added_exact (h : r.Sound) {m : Member} (hadds : Adds r m r') {owner : Nat}
    {table' : List (String × Nat)} (ht' : r'.tables.lookup owner = some table') :
    (table'.map (·.1)).Nodup
      ∧ ∀ key n, table'.lookup key = some n ↔ r'.Latest (r'.Enrolled owner) key n := by
  cases hlookup : r.tables.lookup owner with
  | some table =>
    obtain ⟨table₁, ht₁, htakes⟩ := hadds.old owner table hlookup
    cases ht₁.symm.trans ht'
    obtain ⟨hnodup, hexact⟩ := h.exact owner table hlookup
    refine ⟨htakes.nodup hnodup, fun key n => ?_⟩
    rw [htakes.lookup, hexact, h.added_latest hadds Iff.rfl]
  | none =>
    rw [hadds.new owner hlookup] at ht'
    split at ht'
    · cases ht'
      refine ⟨List.nodup_nil, fun key n => ⟨fun hin => ?_, fun hlatest => ?_⟩⟩
      · cases hin
      · exact absurd hlatest.isOne (h.not_added_enrolled hadds hlookup)
    · cases ht'

theorem Sound.adds (h : r.Sound) {m : Member} (hadds : Adds r m r') : r'.Sound where
  based := by
    rw [hadds.members, List.length_append]
    exact h.based.trans (Nat.lt_succ_self _)
  parents n m' hm' p hp := by
    rcases added_cases hadds.members hm' with ⟨-, hold⟩ | ⟨rfl, rfl⟩
    · exact h.parents n m' hold p hp
    · exact hadds.parents p hp
  lineage n m' hm' := by
    rcases added_cases hadds.members hm' with ⟨-, hold⟩ | ⟨rfl, rfl⟩
    · exact h.lineage n m' hold
    · exact hadds.lineage
  families _ _ hm' := h.added_families hadds hm'
  owners := h.added_owners hadds
  exact _ _ := h.added_exact hadds

theorem initial_sound : initial.Sound := by
  have hmember (n : Nat) (m : Member) (hm : initial.members[n]? = some m) :
      n = 0 ∧ m = { name := baseName, parents := [], lineage := [base] } := by
    cases n with
    | zero => exact ⟨rfl, (Option.some.inj hm).symm⟩
    | succ n => cases hm
  have hhead (n : Nat) : initial.isHead n = false := by
    cases n <;> rfl
  constructor
  · exact Nat.zero_lt_one
  · intro n m hm p hp
    rw [(hmember n m hm).2] at hp
    cases hp
  · intro n m hm
    obtain ⟨rfl, rfl⟩ := hmember n m hm
    exact ⟨[], rfl, fun a ha => absurd ha List.not_mem_nil⟩
  · intro n m hm head
    rw [(hmember n m hm).2, hhead]
    simp
  · intro n
    rw [hhead]
    cases n <;> simp [initial, base]
  · intro owner table ht
    have hempty : table = [] := by
      cases owner with
      | zero => exact (Option.some.inj ht).symm
      | succ n => cases ht
    subst hempty
    refine ⟨List.nodup_nil, fun key n => ⟨fun hin => ?_, fun hlatest => ?_⟩⟩
    · cases hin
    · obtain ⟨head, hhead', -, -⟩ := hlatest.isOne
      rw [hhead] at hhead'
      cases hhead'

/-- What holds at the start and is kept by a definition holds of what definitions make. -/
theorem Grown.sound (h : r.Grown) : r.Sound := by
  induction h with
  | initial => exact initial_sound
  | define _ hparents hdefine ih =>
    obtain ⟨m, -, -, hadds⟩ := ih.define_adds hparents hdefine
    exact ih.adds hadds

/-! ## What tables hold -/

/-- However members have been defined, a table says for each key which is the latest member with
    that key among those entered into it, and it says nothing else. The base has a table, and so
    have all heads that have another name. -/
theorem Grown.tables_exact (h : r.Grown) :
    (∀ n, (r.tables.lookup n).isSome ↔ n = base ∨ r.isHead n = true ∧ r.nameOf n ≠ baseName)
      ∧ ∀ owner table, r.tables.lookup owner = some table → (table.map (·.1)).Nodup
        ∧ ∀ key n, table.lookup key = some n ↔ r.Latest (r.Enrolled owner) key n :=
  ⟨h.sound.owners, h.sound.exact⟩

/-- A definition leaves all tables alone into which the new member is not entered. -/
theorem Grown.define_frame (h : r.Grown) {name : String} {parents : List Nat}
    {statedKey : Option Value} {methods : List (String × Bool)}
    (hparents : ∀ p ∈ parents, p < r.members.length)
    (hdefine : r.define name parents statedKey methods = .ok r') {owner : Nat}
    (hthere : (r.tables.lookup owner).isSome)
    (hnot : ¬ r'.Enrolled owner r.members.length) :
    r'.tables.lookup owner = r.tables.lookup owner := by
  obtain ⟨m, -, -, hadds⟩ := h.sound.define_adds hparents hdefine
  obtain ⟨table, htable⟩ := Option.isSome_iff_exists.mp hthere
  obtain ⟨table', htable', htakes⟩ := hadds.old owner table htable
  rw [htable, htable', htakes.frame fun hbelongs =>
    hnot ((h.sound.added_enrolled hadds).mpr (Or.inr ⟨rfl, hbelongs⟩))]

/-- A head with a name of its own uses its own table. -/
theorem Sound.tableOwner?_head (h : r.Sound) {head : Nat} (hhead : r.isHead head = true)
    (hname : r.nameOf head ≠ baseName) : r.tableOwner? head = some head := by
  obtain ⟨m, hm, -⟩ := isHead_iff.mp hhead
  obtain ⟨above, hlineage, -⟩ := h.lineage head m hm
  have hown : r.lineage head = head :: above := by
    unfold Registry.lineage
    rw [hm]
    exact hlineage
  have hthere := (h.owners head).mpr (Or.inr ⟨hhead, hname⟩)
  unfold tableOwner?
  rw [hown, List.find?_cons, hthere]

/-- Where no head has the name of the base, each head has a table of its own, and a member is
    entered into it exactly if it reaches the head through members that are no heads. -/
theorem Sound.enrolled_iff (h : r.Sound)
    (hnames : ∀ n, r.isHead n = true → r.nameOf n ≠ baseName) {head : Nat}
    (hhead : r.isHead head = true) (n : Nat) : r.Enrolled head n ↔ r.Reaches n head := by
  constructor
  · rintro ⟨head', hhead', hreach, howner⟩
    rw [h.tableOwner?_head hhead' (hnames head' hhead')] at howner
    cases howner
    exact hreach
  · exact fun hreach => ⟨head, hhead, hreach, h.tableOwner?_head hhead (hnames head hhead)⟩

/-- Families keep to themselves where no head has the name of the base. The table that a head uses
    says for each key which is the latest member with that key among those that reach the head
    through members that are no heads, and it says nothing else. A definition changes nothing of
    the table of a head that the new member does not reach. -/
theorem Grown.families_exact (h : r.Grown)
    (hnames : ∀ n, r.isHead n = true → r.nameOf n ≠ baseName) {head : Nat}
    (hhead : r.isHead head = true) :
    (∃ table, r.table? head = some table ∧ (table.map (·.1)).Nodup
      ∧ ∀ key n, table.lookup key = some n ↔ r.Latest (r.Reaches · head) key n)
      ∧ ∀ (name : String) (parents : List Nat) (statedKey : Option Value)
        (methods : List (String × Bool)) (r' : Registry),
        (∀ p ∈ parents, p < r.members.length) →
        r.define name parents statedKey methods = .ok r' →
        ¬ r'.Reaches r.members.length head → r'.table? head = r.table? head := by
  have hsound := h.sound
  have howner := hsound.tableOwner?_head hhead (hnames head hhead)
  have hthere := lookup_isSome_of_tableOwner? howner
  have htable : r.table? head = r.tables.lookup head := by
    unfold table?
    rw [howner]
    rfl
  have hkind : r.Enrolled head = (r.Reaches · head) :=
    funext fun n => propext (hsound.enrolled_iff hnames hhead n)
  constructor
  · obtain ⟨table, hlookup⟩ := Option.isSome_iff_exists.mp hthere
    obtain ⟨hnodup, hexact⟩ := hsound.exact head table hlookup
    exact ⟨table, htable.trans hlookup, hnodup, hkind ▸ hexact⟩
  · intro name parents statedKey methods r' hparents hdefine hnot
    obtain ⟨m, -, -, hadds⟩ := hsound.define_adds hparents hdefine
    have hsame : r'.tables.lookup head = r.tables.lookup head := by
      refine h.define_frame hparents hdefine hthere fun henrolled => ?_
      rcases (hsound.added_enrolled hadds).mp henrolled with hold | ⟨-, head', hmem, howner'⟩
      · exact absurd (lt_of_enrolled hold) (Nat.lt_irrefl _)
      · -- The head whose table it is would have to be the one that is not reached.
        rw [hadds.families, hsound.mem_familiesOf hadds.parents] at hmem
        rw [hsound.tableOwner?_head hmem.1 (hnames head' hmem.1)] at howner'
        cases howner'
        exact hnot ((hsound.added_reaches_new hadds.members hadds.parents).mpr hmem.2)
    have howner' := (hsound.added_tableOwner? hadds (lt_of_isHead hhead)).trans howner
    rw [htable, ← hsame]
    unfold table?
    rw [howner']
    rfl

/-- A head, a head below it that has the name of the base, and a member below that one. -/
def namesakes : Registry where
  members :=
    [{ name := baseName, parents := [], lineage := [0] },
     { name := "A", parents := [0], lineage := [1, 0] },
     { name := baseName, parents := [1, 0], lineage := [2, 1, 0], families := [1] },
     { name := "Sub", parents := [2], lineage := [3, 2, 1, 0], families := [2] }]
  named := [(baseName, 2), ("A", 1), ("Sub", 3)]
  tables := [(0, []), (1, [("registrant", 2), ("sub", 3)])]

/-- A head with the name of the base keeps no table, so what is defined below it comes into the
    table of a head that it does not reach. -/
theorem namesake_shares : namesakes.Grown ∧ namesakes.isHead 1 = true
    ∧ namesakes.isHead 2 = true ∧ namesakes.table? 2 = namesakes.table? 1
    ∧ (namesakes.table? 1).bind (·.lookup "sub") = some 3 ∧ ¬ namesakes.Reaches 3 1 := by
  refine ⟨?_, rfl, rfl, rfl, rfl, fun hreach => ?_⟩
  · have hfirst : initial.define "A" [0] none [] = .ok
        { members := namesakes.members.take 2, named := [(baseName, 0), ("A", 1)]
          tables := [(0, []), (1, [])] } := by cbv
    have hsecond : define
        { members := namesakes.members.take 2, named := [(baseName, 0), ("A", 1)]
          tables := [(0, []), (1, [])] } baseName [1, 0] none [] = .ok
        { members := namesakes.members.take 3, named := [(baseName, 2), ("A", 1)]
          tables := [(0, []), (1, [("registrant", 2)])] } := by cbv
    have hthird : define
        { members := namesakes.members.take 3, named := [(baseName, 2), ("A", 1)]
          tables := [(0, []), (1, [("registrant", 2)])] } "Sub" [2] none []
        = .ok namesakes := by cbv
    exact (((Grown.initial.define (by decide) hfirst).define (by decide) hsecond).define
      (by decide) hthird)
  · -- All that leads on from the last member is a head.
    cases hreach with
    | parent hm hp => cases hm; revert hp; decide
    | through hm hp hhead _ =>
      cases hm
      rw [List.mem_singleton.mp hp] at hhead
      cases hhead

end Registry

end Untangle
