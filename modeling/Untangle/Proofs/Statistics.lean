/-
  Untangle.Proofs.Statistics

  What the totals over a batch come to (`Batch.statistics_account`). One outcome moves the totals
  in one way (`Statistics.Recorded`), and each part of what they say of a batch is carried through
  the batch by that step. Why methods were reverted is kept by name, so of methods of one name the
  last one counts.
-/
import Mathlib.Data.Set.Card
import Untangle.Batch
import Untangle.Proofs.Pipeline.Outcomes

namespace Untangle

/-! ## Lists -/

theorem filter_concat {α : Type} (p : α → Bool) (items : List α) (a : α) :
    (items ++ [a]).filter p = items.filter p ++ if p a then [a] else [] := by
  rw [List.filter_append, List.filter_singleton]
  cases p a <;> rfl

theorem countP_concat {α : Type} (p : α → Bool) (items : List α) (a : α) :
    (items ++ [a]).countP p = items.countP p + (p a).toNat := by
  rw [List.countP_append, List.countP_singleton]
  cases p a <;> rfl

/-- A list without repetition has as many items as there are. -/
theorem ncard_mem {α : Type} {items : List α} (hnodup : items.Nodup) :
    Set.ncard {a | a ∈ items} = items.length := by
  classical
  rw [← List.coe_toFinset, Set.ncard_coe_finset, List.toFinset_card_of_nodup hnodup]

/-! ## Outcomes -/

namespace Outcome

/-- The method was worked on, and nothing came of it. -/
def unchanged (o : Outcome) : Bool :=
  !o.rewritten && !o.reverted && !o.skipped

/-- How often a stage changed a method, if it did. -/
def changesBy (o : Outcome) (stage : String) : Option Int :=
  (o.changes.lookup stage).filter (· != 0)

/-- A method of this name stays as it was because of a fault. -/
def revertedAs (o : Outcome) (name : String) : Bool :=
  o.reverted && o.name == .str name

end Outcome

/-- The names of the methods that were reverted. -/
def revertedNames (outcomes : List Outcome) : List Value :=
  (outcomes.filter (·.reverted)).map (·.name)

@[simp] theorem Value.plus_int (m n : Int) : plus (.int m) (.int n) = .ok (.int (m + n)) := rfl

@[simp] theorem Number.total_concat (ns : List Int) (n : Int) :
    total (ns ++ [n]) = total ns + n := by
  show (ns ++ [n]).sum = ns.sum + n
  rw [List.sum_append, List.sum_singleton]

theorem Batch.runOne_clear (settings : Settings) (m : Method) :
    (runOne settings m).1.name = m.name ∧ (runOne settings m).1.Clear := by
  unfold runOne
  split
  · exact ⟨rfl, ⟨fun _ => ⟨rfl, rfl⟩, nofun, .nil⟩⟩
  · exact m.normalize_clear settings

/-- A text is found under itself only. -/
theorem Value.sole_str (s : String) : Entries.Sole (Value.str s) := by
  have hequal (v : Value) : (v == .str s) = true ↔ v = .str s := by
    show same v (.str s) = true ↔ _
    cases v <;> simp [same, sameThing, equal, wholeNumber?, asInt?]
  have hequal' (v : Value) : (Value.str s == v) = true ↔ Value.str s = v := by
    show same (.str s) v = true ↔ _
    cases v <;> simp [same, sameThing, equal, wholeNumber?, asInt?]
  exact fun v => ⟨hequal v, hequal' v⟩

theorem Outcome.revertedAs_iff {o : Outcome} {name : String} :
    o.revertedAs name = true ↔ o.reverted = true ∧ o.name = .str name := by
  rw [revertedAs, Bool.and_eq_true, (Value.sole_str name o.name).1]

namespace Statistics

variable {s s' : Statistics} {o : Outcome} {outcomes : List Outcome}

/-! ## The table of stages -/

theorem lookup_addCount (stage other : String) (count : Value)
    (table : List (String × List Value)) :
    ((addCount stage count table).lookup other).getD []
      = (table.lookup other).getD [] ++ if other = stage then [count] else [] := by
  unfold addCount
  by_cases h : other = stage
  · subst h
    rw [Entries.lookup_update_self, if_pos rfl]
    rfl
  · rw [Entries.lookup_update_of_ne _ _ h, if_neg h, List.append_nil]

/-- A table of counts: each stage comes once, and only if it changed a method. -/
structure Tabled (table : List (String × List Value)) : Prop where
  once : (table.map (·.1)).Nodup
  counted : ∀ e ∈ table, e.2 ≠ []

theorem Tabled.add {table : List (String × List Value)} (h : Tabled table) (stage : String)
    (count : Value) : Tabled (addCount stage count table) := by
  refine ⟨(Entries.sole stage).nodup_update _ h.once, fun e he => ?_⟩
  rcases Entries.mem_update he with he | ⟨-, counts, hcounts⟩
  · exact h.counted e he
  · rw [hcounts]
    exact List.append_ne_nil_of_right_ne_nil _ (List.cons_ne_nil _ _)

/-- The table with one more count for each of some stages. -/
def addCounts (counts : List (String × Value)) (table : List (String × List Value)) :
    List (String × List Value) :=
  counts.foldl (fun table (stage, count) => addCount stage count table) table

theorem Tabled.addCounts {table : List (String × List Value)} (h : Tabled table)
    (counts : List (String × Value)) : Tabled (addCounts counts table) := by
  induction counts generalizing table with
  | nil => exact h
  | cons e counts ih => exact ih (h.add e.1 e.2)

/-- Under a stage its counts come behind those that were there. -/
theorem lookup_addCounts (counts : List (String × Value)) (table : List (String × List Value))
    (stage : String) :
    ((addCounts counts table).lookup stage).getD []
      = (table.lookup stage).getD [] ++ (counts.filter (·.1 == stage)).map (·.2) := by
  induction counts generalizing table with
  | nil => exact (List.append_nil _).symm
  | cons e counts ih =>
    obtain ⟨other, count⟩ := e
    show ((addCounts counts (addCount other count table)).lookup stage).getD [] = _
    rw [ih, lookup_addCount, List.append_assoc]
    by_cases h : stage = other
    · subst h
      simp
    · simp [h, Ne.symm h]

/-- Of the changes that an outcome lists, those count under a stage that are not zero. -/
theorem stagesChanged_by (ho : (o.changes.map (·.1)).Nodup) (stage : String) :
    (o.report.stagesChanged.filter (·.1 == stage)).map (·.2)
      = (o.changesBy stage).toList.map Value.int := by
  unfold MethodReport.stagesChanged Outcome.report Outcome.changesBy
  dsimp only [Option.getD_some]
  generalize o.changes = changes at ho
  induction changes with
  | nil => rfl
  | cons e changes ih =>
    obtain ⟨key, count⟩ := e
    obtain ⟨hnew, hnodup⟩ := List.nodup_cons.mp ho
    have hrest := ih hnodup
    by_cases h : key = stage
    · -- The stage does not come up again.
      subst h
      have hnone : changes.lookup key = none := by
        refine List.lookup_eq_none_iff.mpr fun e he => bne_iff_ne.mpr fun heq => hnew ?_
        show key ∈ changes.map (·.1)
        rw [heq]
        exact List.mem_map_of_mem he
      rw [hnone] at hrest
      by_cases hzero : count = 0
      · simpa [Value.truthy, hzero, Option.filter] using hrest
      · simpa [Value.truthy, hzero, Option.filter] using hrest
    · have hback : (stage == key) = false := by simpa using Ne.symm h
      rw [List.lookup_cons, hback]
      by_cases hzero : count = 0
      · simpa [Value.truthy, hzero] using hrest
      · simpa [Value.truthy, hzero, h] using hrest

/-! ## One outcome -/

/-- How an outcome moves totals. -/
structure Recorded (s : Statistics) (o : Outcome) (s' : Statistics) : Prop where
  seen : s'.seen = s.seen + 1
  rewritten : s'.rewritten = s.rewritten + o.rewritten.toNat
  reverted : s'.reverted = s.reverted + o.reverted.toNat
  unchanged : s'.unchanged = s.unchanged + o.unchanged.toNat
  skipped : s'.skipped = s.skipped + o.skipped.toNat
  switchesResolved : s.switchesResolved.plus (.int (if o.rewritten then o.switchesResolved else 0))
    = .ok s'.switchesResolved
  loopsDetected : s.loopsDetected.plus (.int o.loopsDetected) = .ok s'.loopsDetected
  stageChanges : s'.stageChanges = if o.rewritten then
    addCounts o.report.stagesChanged s.stageChanges else s.stageChanges
  revertedReasons : s'.revertedReasons = if o.reverted then
    Entries.put o.name (.str o.reason) s.revertedReasons else s.revertedReasons

/-- An outcome is recorded where its name can be looked up, by cases on its kind. -/
theorem exists_record {n l : Int} (hswitches : s.switchesResolved = .int n)
    (hloops : s.loopsDetected = .int l) (ho : o.Clear) (hname : o.name.isKey = true) :
    ∃ s', s.record o.report = .ok s' ∧ s.Recorded o s' := by
  have hcounted : s.loopsDetected.plus o.report.loopsDetected
      = .ok (.int (l + o.loopsDetected)) := by
    rw [hloops]
    rfl
  let t : Statistics := { s with seen := s.seen + 1, loopsDetected := .int (l + o.loopsDetected) }
  have hrecord : s.record o.report = if o.skipped then .ok { t with skipped := s.skipped + 1 }
      else if o.rewritten then t.recordRewritten o.report
      else if o.reverted then .ok { t with
        reverted := s.reverted + 1
        revertedReasons := Entries.put o.name (.str o.reason) s.revertedReasons }
      else .ok { t with unchanged := s.unchanged + 1 } := by
    unfold record
    rw [hcounted, show o.report.name.asKey = .ok o.name from if_pos hname]
    rfl
  have hrewritten : t.recordRewritten o.report = .ok { t with
      rewritten := s.rewritten + 1
      switchesResolved := .int (n + o.switchesResolved)
      stageChanges := addCounts o.report.stagesChanged s.stageChanges } := by
    unfold recordRewritten
    rw [show t.switchesResolved = .int n from hswitches]
    rfl
  rcases ho.kinds with ⟨hs, hr, hv⟩ | ⟨hs, hr, hv⟩ | ⟨hs, hr, hv⟩ | ⟨hs, hr, hv⟩
  all_goals
    rw [hrecord, hrewritten, hs, hr, hv]
    refine ⟨_, rfl, ?_⟩
    constructor <;> simp [t, Outcome.unchanged, hs, hr, hv, hswitches, hloops]

/-! ## The table of reasons -/

/-- A table that says why methods were reverted. -/
structure Explains (table : Table) (outcomes : List Outcome) : Prop where
  /-- Under a name stands the reason of the last method of that name. -/
  last : ∀ name, table.get? name
    = (outcomes.filter (·.revertedAs name)).getLast?.map fun o => .str o.reason
  /-- No other names stand there. -/
  named : ∀ v ∈ table.keys, v ∈ revertedNames outcomes
  once : (∀ v ∈ revertedNames outcomes, ∃ name, v = .str name) → table.keys.Nodup

variable {table : Table}

theorem Explains.keep (h : Explains table outcomes) (ho : o.reverted = false) :
    Explains table (outcomes ++ [o]) := by
  have hnames : revertedNames (outcomes ++ [o]) = revertedNames outcomes := by
    unfold revertedNames
    rw [filter_concat, ho, if_neg Bool.false_ne_true, List.append_nil]
  refine ⟨fun name => ?_, hnames ▸ h.named, hnames ▸ h.once⟩
  rw [h.last, filter_concat, if_neg (by simp [Outcome.revertedAs, ho]), List.append_nil]

theorem Explains.put (h : Explains table outcomes) (ho : o.reverted = true) :
    Explains (Entries.put o.name (.str o.reason) table) (outcomes ++ [o]) := by
  have hnames : revertedNames (outcomes ++ [o]) = revertedNames outcomes ++ [o.name] := by
    unfold revertedNames
    rw [filter_concat, ho, if_pos rfl, List.map_append, List.map_singleton]
  refine ⟨fun name => ?_, fun v hv => ?_, fun htexts => ?_⟩
  · have hsole := Value.sole_str name
    unfold Table.get? Entries.put
    rw [filter_concat]
    by_cases heq : o.name = .str name
    · rw [if_pos (Outcome.revertedAs_iff.mpr ⟨ho, heq⟩), List.getLast?_concat, heq,
        hsole.lookup_update_self]
      rfl
    · rw [if_neg fun has => heq (Outcome.revertedAs_iff.mp has).2, List.append_nil,
        hsole.lookup_update_of_ne _ _ (Ne.symm heq)]
      exact h.last name
  · obtain ⟨e, he, rfl⟩ := List.mem_map.mp hv
    rw [hnames, List.mem_append, List.mem_singleton]
    rcases Entries.mem_update he with he | ⟨heq | he, -⟩
    · exact Or.inl (h.named _ (List.mem_map_of_mem he))
    · exact Or.inr heq
    · exact Or.inl (h.named _ he)
  · rw [hnames] at htexts
    obtain ⟨name, heq⟩ := htexts o.name (List.mem_append_right _ List.mem_cons_self)
    unfold Entries.put
    rw [heq]
    exact (Value.sole_str name).nodup_update _
      (h.once fun v hv => htexts v (List.mem_append_left _ hv))

/-- Under a name that is a text, a reason is found. -/
theorem Explains.mem_keys (h : Explains table outcomes) {name : String}
    (hname : .str name ∈ revertedNames outcomes) : .str name ∈ table.keys := by
  obtain ⟨o, ho, heq⟩ := List.mem_map.mp hname
  obtain ⟨hin, hreverted⟩ := List.mem_filter.mp ho
  have hsome : (table.lookup (.str name)).isSome := by
    have hlast := h.last name
    unfold Table.get? at hlast
    rw [hlast, Option.isSome_map, List.getLast?_isSome]
    exact List.ne_nil_of_mem
      (List.mem_filter.mpr ⟨hin, Outcome.revertedAs_iff.mpr ⟨hreverted, heq⟩⟩)
  obtain ⟨e, he, hsame⟩ := List.lookup_isSome_iff.mp hsome
  rw [(Value.sole_str name e.1).2.mp hsame]
  exact List.mem_map_of_mem he

/-- Where all names are texts, there are as many reasons as names. -/
theorem Explains.length (h : Explains table outcomes)
    (htexts : ∀ v ∈ revertedNames outcomes, ∃ name, v = .str name) :
    table.length = Set.ncard {v | v ∈ revertedNames outcomes} := by
  have hkeys (v : Value) : v ∈ revertedNames outcomes ↔ v ∈ table.keys := by
    refine ⟨fun hv => ?_, h.named v⟩
    obtain ⟨name, rfl⟩ := htexts v hv
    exact h.mem_keys hv
  have hsame : {v | v ∈ revertedNames outcomes} = {v | v ∈ table.keys} := Set.ext hkeys
  rw [hsame, ncard_mem (h.once htexts), Table.keys, List.length_map]

/-! ## A batch -/

/-- What totals say of the outcomes that were recorded. -/
structure Accounts (s : Statistics) (outcomes : List Outcome) : Prop where
  seen : s.seen = outcomes.length
  rewritten : s.rewritten = outcomes.countP (·.rewritten)
  reverted : s.reverted = outcomes.countP (·.reverted)
  unchanged : s.unchanged = outcomes.countP (·.unchanged)
  skipped : s.skipped = outcomes.countP (·.skipped)
  /-- No method is counted twice, and none is left out. -/
  total : s.seen = s.rewritten + s.reverted + s.unchanged + s.skipped
  switchesResolved : s.switchesResolved
    = .int (Number.total ((outcomes.filter (·.rewritten)).map (·.switchesResolved)))
  loopsDetected : s.loopsDetected = .int (Number.total (outcomes.map (·.loopsDetected)))
  stageChanges : ∀ stage, (s.stageChanges.lookup stage).getD []
    = ((outcomes.filter (·.rewritten)).filterMap (·.changesBy stage)).map .int
  stages : Tabled s.stageChanges
  reasons : Explains s.revertedReasons outcomes

/-- Nothing has been recorded. -/
theorem Accounts.start : Accounts {} [] where
  seen := rfl
  rewritten := rfl
  reverted := rfl
  unchanged := rfl
  skipped := rfl
  total := rfl
  switchesResolved := rfl
  loopsDetected := rfl
  stageChanges _ := rfl
  stages := ⟨.nil, nofun⟩
  reasons := ⟨fun _ => rfl, nofun, fun _ => .nil⟩

/-- One more outcome. -/
theorem Accounts.step (h : s.Accounts outcomes) (ho : o.Clear) (hstep : s.Recorded o s') :
    s'.Accounts (outcomes ++ [o]) where
  seen := by rw [hstep.seen, h.seen, List.length_append, List.length_singleton]
  rewritten := by rw [hstep.rewritten, h.rewritten, countP_concat]
  reverted := by rw [hstep.reverted, h.reverted, countP_concat]
  unchanged := by rw [hstep.unchanged, h.unchanged, countP_concat]
  skipped := by rw [hstep.skipped, h.skipped, countP_concat]
  total := by
    have hone : o.rewritten.toNat + o.reverted.toNat + o.unchanged.toNat + o.skipped.toNat = 1 := by
      unfold Outcome.unchanged
      rcases ho.kinds with ⟨hs, hr, hv⟩ | ⟨hs, hr, hv⟩ | ⟨hs, hr, hv⟩ | ⟨hs, hr, hv⟩
      all_goals
        rw [hs, hr, hv]
        rfl
    have htotal := h.total
    rw [hstep.seen, hstep.rewritten, hstep.reverted, hstep.unchanged, hstep.skipped]
    omega
  switchesResolved := by
    have hplus := hstep.switchesResolved
    rw [h.switchesResolved, Value.plus_int] at hplus
    rw [← Except.ok.inj hplus, filter_concat]
    cases o.rewritten <;> simp
  loopsDetected := by
    have hplus := hstep.loopsDetected
    rw [h.loopsDetected, Value.plus_int] at hplus
    rw [← Except.ok.inj hplus, List.map_append, List.map_singleton, Number.total_concat]
  stageChanges stage := by
    rw [hstep.stageChanges, filter_concat]
    cases o.rewritten with
    | false => simpa using h.stageChanges stage
    | true =>
      rw [if_pos rfl, if_pos rfl, List.filterMap_append, List.map_append, ← h.stageChanges,
        lookup_addCounts, stagesChanged_by ho.stages]
      cases hby : o.changesBy stage <;> simp [hby]
  stages := by
    rw [hstep.stageChanges]
    split
    · exact h.stages.addCounts _
    · exact h.stages
  reasons := by
    rw [hstep.revertedReasons]
    split
    · rename_i hreverted
      exact h.reasons.put hreverted
    · rename_i hnot
      exact h.reasons.keep (Bool.eq_false_iff.mpr hnot)

/-- Outcomes that are recorded one after the other, by induction on them. -/
theorem Accounts.run {more : List Outcome} (h : s.Accounts outcomes)
    (hclear : ∀ o ∈ more, o.name.isKey = true ∧ o.Clear) :
    ∃ s', s.recordAll (more.map Outcome.report) = .ok s' ∧ s'.Accounts (outcomes ++ more) := by
  induction more generalizing s outcomes with
  | nil => exact ⟨s, rfl, (List.append_nil outcomes).symm ▸ h⟩
  | cons o more ih =>
    obtain ⟨hname, ho⟩ := hclear o List.mem_cons_self
    obtain ⟨between, hrecord, hstep⟩ := exists_record h.switchesResolved h.loopsDetected ho hname
    obtain ⟨s', hrun, hs'⟩ := ih (h.step ho hstep) fun o' ho' =>
      hclear o' (List.mem_cons_of_mem _ ho')
    refine ⟨s', bind_eq_ok.mpr ⟨between, hrecord, hrun⟩, ?_⟩
    rw [List.append_cons]
    exact hs'

end Statistics

namespace Batch

/-- The totals over a batch account for every method: each outcome is counted once, under its
    kind, and the changes are those of the methods that were rewritten. There is one reason for
    each name of a method that was reverted. -/
theorem statistics_account (settings : Settings) (methods : List Method)
    (hnames : ∀ m ∈ methods, m.name.isKey = true) :
    ∃ s, statistics (outcomes settings methods) = .ok s
      ∧ s.seen = methods.length ∧ s.Accounts (outcomes settings methods)
      ∧ ((∀ m ∈ methods, ∃ name, m.name = .str name) →
        s.revertedReasons.length
            = Set.ncard {v | v ∈ revertedNames (outcomes settings methods)}
          ∧ ((revertedNames (outcomes settings methods)).Nodup →
            s.revertedReasons.length = s.reverted)) := by
  have hclear : ∀ o ∈ outcomes settings methods,
      ∃ m ∈ methods, o.name = m.name ∧ o.Clear := by
    intro o ho
    obtain ⟨pair, hpair, rfl⟩ := List.mem_map.mp ho
    obtain ⟨m, hm, rfl⟩ := List.mem_map.mp hpair
    exact ⟨m, hm, runOne_clear settings m⟩
  obtain ⟨s, hrun, haccounts⟩ := Statistics.Accounts.start.run fun o ho => by
    obtain ⟨m, hm, hname, ho⟩ := hclear o ho
    exact ⟨hname ▸ hnames m hm, ho⟩
  rw [List.nil_append] at haccounts
  refine ⟨s, hrun, ?_, haccounts, fun htexts => ?_⟩
  · rw [haccounts.seen, outcomes, run, List.length_map, List.length_map]
  have hlength := haccounts.reasons.length fun v hv => by
    obtain ⟨o, ho, rfl⟩ := List.mem_map.mp hv
    obtain ⟨m, hm, hname, -⟩ := hclear o (List.mem_of_mem_filter ho)
    exact hname ▸ htexts m hm
  refine ⟨hlength, fun hnodup => ?_⟩
  rw [hlength, ncard_mem hnodup, haccounts.reverted, List.countP_eq_length_filter, revertedNames,
    List.length_map]

/-- A method that is refused, as its branch leads nowhere. -/
def dangling (target : Int) : Method where
  code := [{ opcode := some .branch, operand := .value (.int target), uid := 0 }]

/-- A method that is rewritten, one that nothing comes of, and two of one name that are
    reverted. -/
def mixedBatch : List Method := [Method.knownDispatch, dangling 5, { code := [] }, dangling 6]

theorem mixedBatch_account :
    (∀ m ∈ mixedBatch, m.name.isKey = true)
      ∧ ∃ s, statistics (outcomes {} mixedBatch) = .ok s ∧ s.Accounts (outcomes {} mixedBatch)
        ∧ s.seen = 4 ∧ s.rewritten = 1 ∧ s.reverted = 2 ∧ s.unchanged = 1 ∧ s.skipped = 0
        ∧ s.revertedReasons.length = Set.ncard {v | v ∈ revertedNames (outcomes {} mixedBatch)} := by
  have hnames : ∀ m ∈ mixedBatch, m.name.isKey = true := by decide
  have htexts : ∀ m ∈ mixedBatch, ∃ name, m.name = .str name := by
    simp [mixedBatch, dangling, Method.knownDispatch]
  obtain ⟨s, hrun, hseen, haccounts, hreasons⟩ := statistics_account {} mixedBatch hnames
  refine ⟨hnames, s, hrun, haccounts, hseen, ?_, ?_, ?_, ?_, (hreasons htexts).1⟩
  · rw [haccounts.rewritten]
    decide +kernel
  · rw [haccounts.reverted]
    decide +kernel
  · rw [haccounts.unchanged]
    decide +kernel
  · rw [haccounts.skipped]
    decide +kernel

/-- Of methods of one name only the last one has its reason kept: there can be fewer reasons than
    methods that were reverted. -/
theorem sameName_reasons : ∃ s, statistics (outcomes {} [dangling 5, dangling 6]) = .ok s
    ∧ s.reverted = 2 ∧ s.revertedReasons.length = 1 := by
  obtain ⟨s, hrun, hs⟩ := exists_ok_of_any
    (x := statistics (outcomes {} [dangling 5, dangling 6]))
    (p := fun s => s.reverted == 2 && s.revertedReasons.length == 1) (by decide +kernel)
  rw [Bool.and_eq_true, beq_iff_eq, beq_iff_eq] at hs
  exact ⟨s, hrun, hs⟩

end Batch

end Untangle
