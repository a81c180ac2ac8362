/-
  Untangle.Proofs.Abstract.Visits

  Induction over a run of the fixed-point solver. What holds before the first visit and is
  kept by every visit holds in the end (`solve_induction`). A visit that does not end the solver
  is taking a block off the queue and then, edge by edge, telling the successors, so a property
  is shown to be kept by looking at one edge (`Kept.solve`). How often a block has been visited
  and is going to be visited only grows on the way (`load`).
-/
import Untangle.Proofs.Abstract.Solver

namespace Untangle

open AbstractStack

namespace Solver

variable {m : Machine} {g : Graph}

/-! ## What visits keep -/

/-- What holds in the beginning and is kept by visits holds in the end. -/
theorem solve_induction {P : Solver → Prop} {schedule : Schedule}
    (hvisit : ∀ s, P s → P (s.visit m g schedule g.rootStacks)) (hstart : P (start g)) :
    P (solve m g schedule) := by
  have hrun (fuel : Nat) (s : Solver) (hs : P s) : P (run m g schedule g.rootStacks fuel s) := by
    induction fuel generalizing s with
    | zero => exact hs
    | succ fuel ih =>
      unfold run
      split
      · exact hs
      · exact ih _ (hvisit s hs)
  exact hrun _ (start g) hstart

/-- A solver that a visit has not ended was not ended before. -/
theorem stop_of_visit {roots : List (Int × AbstractStack)} {schedule : Schedule}
    (hnodup : g.labels.Nodup) {s : Solver} (h : (s.visit m g schedule roots).stop = none) :
    s.stop = none := by
  have hdoes := visit_does m schedule roots hnodup s
  generalize s.visit m g schedule roots = s' at hdoes h
  cases hdoes with
  | idle => exact h
  | gone => cases h
  | fault => cases h
  | same => exact h
  | flows => rwa [flows_stop] at h

/-- Over blocks that run nothing ends the solver. -/
theorem stop_eq_none (hwired : g.Wired)
    (hruns : ∀ b ∈ g.blocks, ∀ s, Report.stop? m b.code s = none) (schedule : Schedule) :
    (solve m g schedule).stop = none := by
  refine (solve_induction (P := fun s => Consistent m g g.rootStacks [] s ∧ s.stop = none)
    (fun s hs => ⟨hs.1.visit hwired, ?_⟩) ⟨start_consistent m hwired.labels_nodup, rfl⟩).2
  obtain ⟨hc, hs⟩ := hs
  have hdoes := visit_does m schedule g.rootStacks hwired.labels_nodup s
  generalize s.visit m g schedule g.rootStacks = s' at hdoes ⊢
  cases hdoes with
  | idle => exact hs
  | gone hqueue hgone => exact absurd (hc.queued _ (hqueue ▸ List.mem_cons_self)).1 hgone
  | fault hb _ hfault => cases (hruns _ hb _).symm.trans hfault
  | same => exact hs
  | flows => rw [flows_stop]; exact hs

/-- What the visits have come to: all but the last one ran to the end, and if that one did not,
    what it came to has ended the solver. Nothing waits then. -/
structure Ran (m : Machine) (s : Solver) : Prop where
  before : ∀ a ∈ s.history.tail, Report.stop? m a.1.code a.2 = none
  last : ∀ a ∈ s.history.head?, ∀ f, Report.stop? m a.1.code a.2 = some f → s.stop = some f
  halts : s.stop = none ∨ s.queue = []

namespace Ran

variable {s : Solver}

/-- As long as nothing has ended the solver all visits ran. -/
theorem all (h : Ran m s) (hstop : s.stop = none) :
    ∀ a ∈ s.history, Report.stop? m a.1.code a.2 = none := by
  obtain ⟨hbefore, hlast, -⟩ := h
  cases hhistory : s.history with
  | nil => nofun
  | cons first rest =>
    rw [hhistory] at hbefore hlast
    refine List.forall_mem_cons.mpr ⟨?_, hbefore⟩
    cases hfirst : Report.stop? m first.1.code first.2 with
    | none => rfl
    | some f => cases hstop.symm.trans (hlast first rfl f hfirst)

/-- One more visit after others that ran. -/
theorem cons (h : Ran m s) (hstop : s.stop = none) {s' : Solver} {a : Arrival}
    (hhistory : s'.history = a :: s.history)
    (hlast : ∀ f, Report.stop? m a.1.code a.2 = some f → s'.stop = some f)
    (hhalts : s'.stop = none ∨ s'.queue = []) : Ran m s' := by
  constructor
  · rw [hhistory]
    exact h.all hstop
  · rw [hhistory]
    rintro _ ⟨⟩
    exact hlast
  · exact hhalts

theorem visit (h : Ran m s) (hnodup : g.labels.Nodup) (schedule : Schedule) :
    Ran m (s.visit m g schedule g.rootStacks) := by
  -- A solver for which something waits has not been ended.
  have hgoes {l : Int} {rest : List Int} (hqueue : s.queue = l :: rest) : s.stop = none :=
    h.halts.resolve_right (by rw [hqueue]; exact List.cons_ne_nil _ _)
  have hdoes := visit_does m schedule g.rootStacks hnodup s
  generalize s.visit m g schedule g.rootStacks = s' at hdoes ⊢
  cases hdoes with
  | idle => exact h
  | gone hqueue =>
    refine ⟨h.before, fun a ha f hf => ?_, Or.inr rfl⟩
    cases (hgoes hqueue).symm.trans (h.last a ha f hf)
  | fault _ hqueue hfault =>
    exact h.cons (hgoes hqueue) rfl (fun f hf => hfault.symm.trans hf) (Or.inr rfl)
  | same _ hqueue hruns =>
    refine h.cons (hgoes hqueue) rfl (fun f hf => ?_) (Or.inl (hgoes hqueue))
    cases hruns.symm.trans hf
  | flows _ hqueue hruns =>
    refine h.cons (hgoes hqueue) (flows_history _ _ _ _) (fun f hf => ?_) (Or.inl ?_)
    · cases hruns.symm.trans hf
    · rw [flows_stop]
      exact hgoes hqueue

end Ran

/-- What the visits have come to when the solver is at its end. -/
theorem solve_ran (hnodup : g.labels.Nodup) (m : Machine) (schedule : Schedule) :
    Ran m (solve m g schedule) :=
  solve_induction (fun _ hs => hs.visit hnodup schedule) ⟨nofun, nofun, Or.inl rfl⟩

/-- The solver before it visits the block at the front of the queue. -/
structure Ready (m : Machine) (g : Graph) (s : Solver) (b : Block) (rest : List Int) : Prop where
  consistent : Consistent m g g.rootStacks [] s
  mem : b ∈ g.blocks
  queue : s.queue = b.label :: rest
  entry : s.entries.lookup b.label = some (s.stackOf b.label)

/-- A property that visits keep, given what holds while the edges are followed of a block that
    was entered with a stack. -/
structure Kept (m : Machine) (g : Graph) (P : Solver → Prop)
    (Q : Block → AbstractStack → Solver → Prop) : Prop where
  skips : ∀ s b rest, Ready m g s b rest → P s → P (s.popped b rest)
  begins : ∀ s b rest, Ready m g s b rest → P s → Q b (s.stackOf b.label) (s.advanced m b rest)
  flows : ∀ s b e l, b ∈ g.blocks → l ∈ b.succs → Q b e s →
    Q b e (s.flow g.rootStacks (transfer m b.code e) l)
  ends : ∀ s b e, Q b e s → P s

namespace Kept

variable {P : Solver → Prop} {Q : Block → AbstractStack → Solver → Prop} {schedule : Schedule}

theorem foldl (h : Kept m g P Q) {b : Block} (hb : b ∈ g.blocks) {e : AbstractStack}
    {succs : List Int} (hsuccs : succs ⊆ b.succs) {s : Solver} (hs : Q b e s) :
    Q b e (succs.foldl (Solver.flow g.rootStacks (transfer m b.code e)) s) := by
  induction succs generalizing s with
  | nil => exact hs
  | cons l succs ih =>
    exact ih (fun l hl => hsuccs (List.mem_cons_of_mem _ hl))
      (h.flows s b e l hb (hsuccs List.mem_cons_self) hs)

/-- A visit keeps the property, unless it ends the solver. -/
theorem visit (h : Kept m g P Q) (hnodup : g.labels.Nodup) {s : Solver}
    (hc : Consistent m g g.rootStacks [] s) (hs : P s)
    (hstop : (s.visit m g schedule g.rootStacks).stop = none) :
    P (s.visit m g schedule g.rootStacks) := by
  have hready {b : Block} (hmem : b ∈ g.blocks) {rest : List Int}
      (hqueue : s.queue = b.label :: rest) : Ready m g s b rest := by
    obtain ⟨-, hsome⟩ := hc.queued b.label (hqueue ▸ List.mem_cons_self)
    obtain ⟨e, he⟩ := Option.isSome_iff_exists.mp hsome
    exact ⟨hc, hmem, hqueue, by rw [stackOf, he]; rfl⟩
  have hdoes := visit_does m schedule g.rootStacks hnodup s
  generalize s.visit m g schedule g.rootStacks = s' at hdoes hstop ⊢
  cases hdoes with
  | idle => exact hs
  | gone => cases hstop
  | fault => cases hstop
  | same hmem hqueue => exact h.skips s _ _ (hready hmem hqueue) hs
  | @flows b _ hmem hqueue =>
    have hfull := schedule.full s.history.length b.succs
    exact h.ends _ _ _ (h.foldl hmem (fun l hl => (hfull l).mp hl)
      (h.begins s _ _ (hready hmem hqueue) hs))

/-- What holds in the beginning and is kept by visits holds in the end, if nothing has ended the
    solver. -/
theorem solve (h : Kept m g P Q) (hwired : g.Wired) (hstart : P (start g))
    (hstop : (Solver.solve m g schedule).stop = none) : P (Solver.solve m g schedule) := by
  refine (solve_induction
    (P := fun s => Consistent m g g.rootStacks [] s ∧ (s.stop = none → P s))
    (fun s hs => ⟨hs.1.visit hwired, fun hgoes => ?_⟩)
    ⟨start_consistent m hwired.labels_nodup, fun _ => hstart⟩).2 hstop
  exact h.visit hwired.labels_nodup hs.1 (hs.2 (stop_of_visit hwired.labels_nodup hgoes)) hgoes

end Kept

/-- Only blocks of the graph are visited. -/
theorem mem_of_mem_history (hnodup : g.labels.Nodup) {schedule : Schedule} {a : Arrival}
    (ha : a ∈ (solve m g schedule).history) : a.1 ∈ g.blocks := by
  refine solve_induction (P := fun s => ∀ a ∈ s.history, a.1 ∈ g.blocks) (fun s hs => ?_) nofun
    a ha
  have hdoes := visit_does m schedule g.rootStacks hnodup s
  generalize s.visit m g schedule g.rootStacks = s' at hdoes ⊢
  cases hdoes with
  | idle => exact hs
  | gone => exact hs
  | fault hb => exact List.forall_mem_cons.mpr ⟨hb, hs⟩
  | same hb => exact List.forall_mem_cons.mpr ⟨hb, hs⟩
  | flows hb =>
    rw [flows_history]
    exact List.forall_mem_cons.mpr ⟨hb, hs⟩

/-! ## How often a block is visited -/

/-- How often a block has been visited, and is going to be as far as the queue shows. -/
def load (s : Solver) (l : Int) : Nat := s.visits l + if l ∈ s.queue then 1 else 0

theorem visits_le_load (s : Solver) (l : Int) : s.visits l ≤ s.load l := Nat.le_add_right _ _

theorem load_of_mem {s : Solver} {l : Int} (h : l ∈ s.queue) : s.load l = s.visits l + 1 := by
  rw [load, if_pos h]

/-- Taking a block off the queue for its visit changes no load. -/
theorem load_popped {s : Solver} {b : Block} {rest : List Int} (honce : s.queue.Nodup)
    (hqueue : s.queue = b.label :: rest) (l : Int) : (s.popped b rest).load l = s.load l := by
  have hnot : b.label ∉ rest := (List.nodup_cons.mp (hqueue ▸ honce)).1
  unfold load
  rw [visits_popped, hqueue]
  show _ + (if l ∈ rest then 1 else 0) = _
  by_cases hl : b.label = l
  · subst hl
    simp [hnot]
  · simp [hl, Ne.symm hl]

/-- Following an edge makes no load less. -/
theorem load_le_enter (s : Solver) (succ l : Int) (new : AbstractStack) :
    s.load l ≤ (s.enter succ new).load l := by
  unfold load
  rw [enter_visits]
  refine Nat.add_le_add_left ?_ _
  by_cases hl : l ∈ s.queue
  · rw [if_pos hl, if_pos (mem_enter_queue.mpr (Or.inl hl))]
  · rw [if_neg hl]
    exact Nat.zero_le _

theorem load_enter_self (s : Solver) (succ : Int) (new : AbstractStack) :
    (s.enter succ new).load succ = s.visits succ + 1 := by
  rw [load_of_mem (mem_enter_queue.mpr (Or.inr rfl)), enter_visits]

theorem load_enter_of_ne (s : Solver) {succ l : Int} (h : l ≠ succ) (new : AbstractStack) :
    (s.enter succ new).load l = s.load l := by
  unfold load
  rw [enter_visits]
  congr 1
  exact if_congr (mem_enter_queue.trans (or_iff_left h)) rfl rfl

/-- In the end nothing waits. -/
theorem load_solve (hwired : g.Wired) (schedule : Schedule) (l : Int) :
    (solve m g schedule).load l = (solve m g schedule).visits l := by
  rw [load, (solve_spec (m := m) hwired schedule).2.2, if_neg List.not_mem_nil]
  rfl

end Solver

end Untangle
