/-
  Untangle.Proofs.Execution.Process

  Deterministic processes, and what it means that one shows the same as another. A
  process goes from place to place and changes the state of a run on the way. Of a run
  the events it leaves and its end can be observed; a run that finds a value missing on the
  stack has no meaning after that point.

  `Simulation.refines` is the one theorem that all comparisons of methods and graphs rest
  on: a relation between places that every step keeps makes the second process show what
  the first one does, and nothing else as long as the first finds no value missing.
-/
import Untangle.Proofs.Execution.Moment

namespace Untangle

/-- Where a process stands: at a place, or at its end. -/
inductive Standing (α : Type) where
  | going (place : α) (σ : Moment)
  | halted (how : Ending) (σ : Moment)

/-- The state of the run where a process stands. -/
def Standing.moment {α : Type} : Standing α → Moment
  | .going _ σ | .halted _ σ => σ

/-- A process: one step from each place and state. -/
abbrev Process (α : Type) := α → Moment → Standing α

namespace Process

variable {α β γ : Type}

/-- A number of steps. -/
def run (P : Process α) : Nat → Standing α → Standing α
  | 0, s => s
  | n + 1, .going p σ => run P n (P p σ)
  | _ + 1, .halted how σ => .halted how σ

@[simp] theorem run_zero (P : Process α) (s : Standing α) : P.run 0 s = s := by
  cases s <;> rfl

@[simp] theorem run_halted (P : Process α) (n : Nat) (how : Ending) (σ : Moment) :
    P.run n (.halted how σ) = .halted how σ := by
  cases n <;> rfl

theorem run_succ (P : Process α) (n : Nat) (p : α) (σ : Moment) :
    P.run (n + 1) (.going p σ) = P.run n (P p σ) := rfl

theorem run_add (P : Process α) (m n : Nat) (s : Standing α) :
    P.run (m + n) s = P.run n (P.run m s) := by
  induction m generalizing s with
  | zero => rw [Nat.zero_add, run_zero]
  | succ m ih =>
    cases s with
    | going p σ => rw [Nat.succ_add, run_succ, run_succ, ih]
    | halted how σ => simp only [run_halted]

/-- A process that has come to its end stays there. -/
theorem run_of_halted {P : Process α} {m n : Nat} {s : Standing α} {how : Ending} {τ : Moment}
    (h : P.run m s = .halted how τ) (hmn : m ≤ n) : P.run n s = .halted how τ := by
  obtain ⟨k, rfl⟩ := Nat.exists_eq_add_of_le hmn
  rw [run_add, h, run_halted]

/-- Every step of the process keeps the events before it. -/
def Records (P : Process α) : Prop :=
  ∀ p σ, σ.seen <:+ (P p σ).moment.seen

theorem Records.run {P : Process α} (hP : P.Records) (n : Nat) (s : Standing α) :
    s.moment.seen <:+ (P.run n s).moment.seen := by
  induction n generalizing s with
  | zero => exact (run_zero P s).symm ▸ List.suffix_refl _
  | succ n ih =>
    cases s with
    | going p σ => exact (hP p σ).trans (ih (P p σ))
    | halted how σ => exact (run_halted P (n + 1) how σ).symm ▸ List.suffix_refl _

/-- More steps show more. -/
theorem Records.run_le {P : Process α} (hP : P.Records) {m n : Nat} (hmn : m ≤ n)
    (s : Standing α) : (P.run m s).moment.seen <:+ (P.run n s).moment.seen := by
  obtain ⟨k, rfl⟩ := Nat.exists_eq_add_of_le hmn
  rw [run_add]
  exact hP.run k _

/-! ## What can be observed -/

/-- The events, the latest first, have been left at some time. -/
def Emits (P : Process α) (p : α) (σ : Moment) (events : List Observation) : Prop :=
  ∃ n, events <:+ (P.run n (.going p σ)).moment.seen

/-- The process comes to an end. -/
def Ends (P : Process α) (p : α) (σ : Moment) (how : Ending) (τ : Moment) : Prop :=
  ∃ n, P.run n (.going p σ) = .halted how τ

/-- The process never finds a value missing on the stack. -/
def Safe (P : Process α) (p : α) (σ : Moment) : Prop :=
  ∀ τ, ¬ P.Ends p σ .underflow τ

/-- The second process shows what the first one shows up to where that one finds a value
    missing, and if the first one never does it shows nothing else. -/
structure Refines (P : Process α) (p : α) (Q : Process β) (q : β) (σ : Moment) : Prop where
  emits : ∀ events, P.Emits p σ events → Q.Emits q σ events
  ends : ∀ how τ, how ≠ .underflow → P.Ends p σ how τ → Q.Ends q σ how τ
  emits_back : P.Safe p σ → ∀ events, Q.Emits q σ events → P.Emits p σ events
  ends_back : P.Safe p σ → ∀ how τ, Q.Ends q σ how τ → P.Ends p σ how τ

namespace Refines

variable {P : Process α} {Q : Process β} {R : Process γ} {p : α} {q : β} {r : γ} {σ : Moment}

theorem refl (P : Process α) (p : α) (σ : Moment) : Refines P p P p σ :=
  ⟨fun _ h => h, fun _ _ _ h => h, fun _ _ h => h, fun _ _ _ h => h⟩

theorem safe (h : Refines P p Q q σ) (hP : P.Safe p σ) : Q.Safe q σ :=
  fun τ hτ => hP τ (h.ends_back hP .underflow τ hτ)

theorem trans (h : Refines P p Q q σ) (h' : Refines Q q R r σ) : Refines P p R r σ where
  emits events he := h'.emits events (h.emits events he)
  ends how τ hhow he := h'.ends how τ hhow (h.ends how τ hhow he)
  emits_back hP events he := h.emits_back hP events (h'.emits_back (h.safe hP) events he)
  ends_back hP how τ he := h.ends_back hP how τ (h'.ends_back (h.safe hP) how τ he)

end Refines

/-! ## Simulation -/

/-- A relation between the places of two processes that steps of the first keep. The second
    may take several steps for one, or none while the rank goes down. Where the first comes
    to an end that is excused, the second has to show as much, and otherwise to end alike. -/
structure Simulation (excused : Ending → Prop) (P : Process α) (Q : Process β)
    (related : α → β → Moment → Prop) (rank : α → Nat) : Prop where
  going : ∀ p q σ p' σ', related p q σ → P p σ = .going p' σ' →
    ∃ k q', Q.run k (.going q σ) = .going q' σ' ∧ related p' q' σ' ∧ (k = 0 → rank p' < rank p)
  halted : ∀ p q σ how τ, related p q σ → P p σ = .halted how τ → ¬ excused how →
    ∃ k, Q.run k (.going q σ) = .halted how τ
  excuse : ∀ p q σ how τ, related p q σ → P p σ = .halted how τ → excused how →
    ∃ k, τ.seen <:+ (Q.run k (.going q σ)).moment.seen

namespace Simulation

variable {excused : Ending → Prop} {P : Process α} {Q : Process β}
  {related : α → β → Moment → Prop} {rank : α → Nat} {p : α} {q : β} {σ : Moment}

/-- Both processes stand at related places, or at the same end. -/
inductive Agree (related : α → β → Moment → Prop) : Standing α → Standing β → Prop where
  | going {p : α} {q : β} {σ : Moment} (h : related p q σ) : Agree related (.going p σ) (.going q σ)
  | halted (how : Ending) (σ : Moment) : Agree related (.halted how σ) (.halted how σ)

theorem Agree.moment {s : Standing α} {t : Standing β} (h : Agree related s t) :
    s.moment = t.moment := by
  cases h <;> rfl

/-- Processes that agree step by step, but for excused ends of the first. -/
theorem lockstep (h : ∀ p q σ, related p q σ → Agree related (P p σ) (Q q σ)
      ∨ ∃ how τ, P p σ = .halted how τ ∧ excused how ∧ τ.seen <:+ (Q q σ).moment.seen) :
    Simulation excused P Q related fun _ => 0 where
  going p q σ p' σ' hpq hstep := by
    rcases h p q σ hpq with hagree | ⟨how, τ, hend, -⟩
    · rw [hstep] at hagree
      generalize hq : Q q σ = t at hagree
      cases hagree with
      | going hrel => exact ⟨1, _, hq, hrel, fun h0 => absurd h0 (by decide)⟩
    · rw [hstep] at hend
      cases hend
  halted p q σ how τ hpq hstep hhow := by
    rcases h p q σ hpq with hagree | ⟨how', τ', hend, hexc, -⟩
    · rw [hstep] at hagree
      generalize hq : Q q σ = t at hagree
      cases hagree with
      | halted => exact ⟨1, hq⟩
    · rw [hstep] at hend
      cases hend
      exact absurd hexc hhow
  excuse p q σ how τ hpq hstep _ := by
    refine ⟨1, ?_⟩
    rw [run_succ, run_zero]
    rcases h p q σ hpq with hagree | ⟨how', τ', hend, -, hseen⟩
    · rw [hstep] at hagree
      rw [← hagree.moment]
      exact List.suffix_refl _
    · rw [hstep] at hend
      cases hend
      exact hseen

/-- Wherever the first process stands, the second comes to a place that agrees; or the first
    has come to an excused end, and the second shows as much. -/
theorem follow (sim : Simulation excused P Q related rank) (n : Nat) (h : related p q σ) :
    (∃ k, Agree related (P.run n (.going p σ)) (Q.run k (.going q σ)))
      ∨ ∃ how τ, excused how ∧ P.run n (.going p σ) = .halted how τ
          ∧ ∃ k, τ.seen <:+ (Q.run k (.going q σ)).moment.seen := by
  induction n generalizing p q σ with
  | zero => exact Or.inl ⟨0, by simpa using Agree.going h⟩
  | succ n ih =>
    rw [run_succ]
    cases hstep : P p σ with
    | going p' σ' =>
      obtain ⟨k, q', hk, hrel, -⟩ := sim.going p q σ p' σ' h hstep
      rcases ih hrel with ⟨k', hagree⟩ | ⟨how, τ, hexc, hrun, k', hseen⟩
      · refine Or.inl ⟨k + k', ?_⟩
        rw [run_add, hk]
        exact hagree
      · refine Or.inr ⟨how, τ, hexc, hrun, k + k', ?_⟩
        rw [run_add, hk]
        exact hseen
    | halted how τ =>
      by_cases hexc : excused how
      · exact Or.inr ⟨how, τ, hexc, run_halted P n how τ, sim.excuse p q σ how τ h hstep hexc⟩
      · obtain ⟨k, hk⟩ := sim.halted p q σ how τ h hstep hexc
        refine Or.inl ⟨k, ?_⟩
        rw [run_halted, hk]
        exact Agree.halted how τ

/-- However many steps the second process has made, the first can catch up with it, unless
    the first comes to an excused end. -/
theorem catch_up (sim : Simulation excused P Q related rank) (j : Nat) (h : related p q σ) :
    (∃ n k, j ≤ k ∧ Agree related (P.run n (.going p σ)) (Q.run k (.going q σ)))
      ∨ ∃ how τ, excused how ∧ P.Ends p σ how τ := by
  induction j generalizing p q σ with
  | zero => exact Or.inl ⟨0, 0, Nat.le_refl 0, by simpa using Agree.going h⟩
  | succ j ih =>
    -- A step that the second process does not follow lowers the rank.
    generalize hr : rank p = r
    induction r using Nat.strongRecOn generalizing p q σ with
    | ind r ihr =>
      cases hstep : P p σ with
      | halted how τ =>
        by_cases hexc : excused how
        · exact Or.inr ⟨how, τ, hexc, 1, by rw [run_succ, hstep, run_halted]⟩
        · obtain ⟨k, hk⟩ := sim.halted p q σ how τ h hstep hexc
          refine Or.inl ⟨1, max k (j + 1), Nat.le_max_right _ _, ?_⟩
          rw [run_succ, hstep, run_halted, run_of_halted hk (Nat.le_max_left _ _)]
          exact Agree.halted how τ
      | going p' σ' =>
        obtain ⟨k, q', hk, hrel, hrank⟩ := sim.going p q σ p' σ' h hstep
        have hrest : (∃ n k', j + 1 ≤ k + k'
              ∧ Agree related (P.run n (.going p' σ')) (Q.run k' (.going q' σ')))
            ∨ ∃ how τ, excused how ∧ P.Ends p' σ' how τ := by
          rcases Nat.eq_zero_or_pos k with rfl | hpos
          · have hlt : rank p' < r := hr ▸ hrank rfl
            simpa using ihr (rank p') hlt hrel rfl
          · rcases ih hrel with ⟨n, k', hle, hagree⟩ | hends
            · exact Or.inl ⟨n, k', by omega, hagree⟩
            · exact Or.inr hends
        rcases hrest with ⟨n, k', hle, hagree⟩ | ⟨how, τ, hexc, n, hn⟩
        · refine Or.inl ⟨n + 1, k + k', hle, ?_⟩
          rw [run_succ, hstep, run_add, hk]
          exact hagree
        · exact Or.inr ⟨how, τ, hexc, n + 1, by rw [run_succ, hstep, hn]⟩

/-- The second process shows what the first one shows. -/
theorem emits (sim : Simulation excused P Q related rank) (h : related p q σ)
    {events : List Observation} (he : P.Emits p σ events) : Q.Emits q σ events := by
  obtain ⟨n, hn⟩ := he
  rcases sim.follow n h with ⟨k, hagree⟩ | ⟨how, τ, -, hrun, k, hseen⟩
  · exact ⟨k, hagree.moment ▸ hn⟩
  · refine ⟨k, List.IsSuffix.trans ?_ hseen⟩
    rw [hrun] at hn
    exact hn

/-- The second process ends as the first one does. -/
theorem ends (sim : Simulation excused P Q related rank) (h : related p q σ) {how : Ending}
    {τ : Moment} (hhow : ¬ excused how) (he : P.Ends p σ how τ) : Q.Ends q σ how τ := by
  obtain ⟨n, hn⟩ := he
  rcases sim.follow n h with ⟨k, hagree⟩ | ⟨how', τ', hexc, hrun, -⟩
  · refine ⟨k, ?_⟩
    rw [hn] at hagree
    generalize Q.run k (.going q σ) = t at hagree
    cases hagree
    rfl
  · rw [hn] at hrun
    cases hrun
    exact absurd hexc hhow

/-- Without an excused end of the first process, it shows what the second one shows. -/
theorem emits_back (sim : Simulation excused P Q related rank) (hQ : Q.Records)
    (h : related p q σ) (hP : ∀ how τ, excused how → ¬ P.Ends p σ how τ)
    {events : List Observation} (he : Q.Emits q σ events) : P.Emits p σ events := by
  obtain ⟨j, hj⟩ := he
  rcases sim.catch_up j h with ⟨n, k, hle, hagree⟩ | ⟨how, τ, hexc, hends⟩
  · refine ⟨n, hj.trans ?_⟩
    rw [hagree.moment]
    exact hQ.run_le hle _
  · exact absurd hends (hP how τ hexc)

/-- Without an excused end of the first process, it ends as the second one does. -/
theorem ends_back (sim : Simulation excused P Q related rank) (h : related p q σ)
    (hP : ∀ how τ, excused how → ¬ P.Ends p σ how τ) {how : Ending} {τ : Moment}
    (he : Q.Ends q σ how τ) : P.Ends p σ how τ := by
  obtain ⟨j, hj⟩ := he
  rcases sim.catch_up j h with ⟨n, k, hle, hagree⟩ | ⟨how', τ', hexc, hends⟩
  · refine ⟨n, ?_⟩
    rw [run_of_halted hj hle] at hagree
    generalize P.run n (.going p σ) = s at hagree
    cases hagree
    rfl
  · exact absurd hends (hP how' τ' hexc)

/-- Of related places the second refines the first, where only missing values are excused. -/
theorem refines (sim : Simulation (· = .underflow) P Q related rank) (hQ : Q.Records)
    (h : related p q σ) : Refines P p Q q σ where
  emits _ he := sim.emits h he
  ends _ _ hhow he := sim.ends h hhow he
  emits_back hP _ he := sim.emits_back hQ h (by rintro _ τ rfl; exact hP τ) he
  ends_back hP _ _ he := sim.ends_back h (by rintro _ τ rfl; exact hP τ) he

/-- Where nothing is excused, related places refine each other. -/
theorem refines_both (sim : Simulation (fun _ => False) P Q related rank) (hQ : Q.Records)
    (h : related p q σ) : Refines P p Q q σ ∧ Refines Q q P p σ := by
  have hP : ∀ how τ, False → ¬ P.Ends p σ how τ := fun _ _ hf => hf.elim
  refine ⟨?_, ?_⟩
  · exact {
      emits := fun _ he => sim.emits h he
      ends := fun _ _ _ he => sim.ends h id he
      emits_back := fun _ _ he => sim.emits_back hQ h hP he
      ends_back := fun _ _ _ he => sim.ends_back h hP he }
  · exact {
      emits := fun _ he => sim.emits_back hQ h hP he
      ends := fun _ _ _ he => sim.ends_back h hP he
      emits_back := fun _ _ he => sim.emits h he
      ends_back := fun _ _ _ he => sim.ends h id he }

end Simulation

end Process

end Untangle
