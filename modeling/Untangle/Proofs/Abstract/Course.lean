/-
  Untangle.Proofs.Abstract.Course

  Whether an analysis ends with facts or stops at a fault. At a width that integers can have,
  it depends on the instructions only and not on what is known of the stack whether one of
  them can be run; so two courses over the same blocks either both end with facts or both
  stop.
-/
import Untangle.Proofs.Abstract.Visits

namespace Untangle

open AbstractStack

/-! ## Running instructions -/

namespace Report

/-- Operations on integers of a proper width do not go wrong. -/
theorem evaluate_ne_misuse {m : Machine} {w : Width} (hw : m.width = .whole w) (op : ArithOp)
    (operands : List AbstractValue) (f : Misuse) :
    evaluate m op operands ≠ .error (.misuse f) := by
  unfold evaluate
  cases operands.mapM AbstractValue.constant? with
  | none => exact nofun
  | some vs =>
    dsimp only
    unfold ArithOp.evaluateAt
    rw [hw]
    split
    · exact nofun
    · dsimp only
      cases op.evaluate vs w m.policy with
      | error o => exact nofun
      | ok r => cases r <;> exact nofun

/-- Whether an instruction can be run does not depend on the stack. -/
theorem of?_fault {m : Machine} {w : Width} (hw : m.width = .whole w) {ins : Instruction}
    {s : AbstractStack} {f : Misuse} (h : of? m ins s = some (.fault f)) (t : AbstractStack) :
    of? m ins t = some (.fault f) := by
  unfold of? at h ⊢
  split at h
  · -- Only here is the stack looked at, and there is no fault.
    rename_i op _ _
    split at h
    · cases h
    · rename_i heval
      exact absurd heval (evaluate_ne_misuse hw op _ _)
    · cases h
  · exact h
  · exact h
  · exact h
  · exact h
  · exact h
  · cases h

/-- Code runs from a stack to its end. -/
def Runs (m : Machine) (code : List Instruction) (s : AbstractStack) : Prop :=
  stop? m code s = none

theorem stop?_cons (m : Machine) (ins : Instruction) (rest : List Instruction)
    (s : AbstractStack) : stop? m (ins :: rest) s
      = match of? m ins s with
        | some (.fault f) => some f
        | _ => stop? m rest (step m ins s).1 := by
  unfold stop?
  rw [ofCode]
  cases of? m ins s with
  | none => rfl
  | some r => cases r <;> rfl

theorem runs_cons {m : Machine} {ins : Instruction} {rest : List Instruction}
    {s : AbstractStack} : Runs m (ins :: rest) s
      ↔ (∀ f, of? m ins s ≠ some (.fault f)) ∧ Runs m rest (step m ins s).1 := by
  unfold Runs
  rw [stop?_cons]
  cases of? m ins s with
  | none => simp
  | some r => cases r <;> simp

/-- Code runs if each instruction does from where the code in front of it leads. -/
theorem runs_iff {m : Machine} {code : List Instruction} {s : AbstractStack} :
    Runs m code s ↔ ∀ front ins back, code = front ++ ins :: back →
      ∀ f, of? m ins (transfer m front s) ≠ some (.fault f) := by
  induction code generalizing s with
  | nil =>
    refine iff_of_true rfl fun front ins back hsplit => ?_
    simp at hsplit
  | cons i code ih =>
    rw [runs_cons, ih]
    constructor
    · rintro ⟨hfirst, hrest⟩ front ins back hsplit
      cases front with
      | nil =>
        cases hsplit
        exact hfirst
      | cons j front =>
        cases hsplit
        exact hrest front ins back rfl
    · intro h
      refine ⟨h [] i code rfl, fun front ins back hsplit => h (i :: front) ins back ?_⟩
      rw [hsplit]
      rfl

/-- Code that runs from one stack runs from every stack. -/
theorem Runs.any {m : Machine} {w : Width} (hw : m.width = .whole w) {code : List Instruction}
    {s : AbstractStack} (h : Runs m code s) (t : AbstractStack) : Runs m code t := by
  induction code generalizing s t with
  | nil => rfl
  | cons ins rest ih =>
    obtain ⟨hins, hrest⟩ := runs_cons.mp h
    exact runs_cons.mpr ⟨fun f hf => hins f (of?_fault hw hf s), ih hrest _⟩

/-- The first fault of two parts. -/
theorem told_append (xs ys : List Report) : (told (xs ++ ys)).2 = (told xs).2.or (told ys).2 := by
  induction xs with
  | nil => rfl
  | cons r rest ih =>
    cases r with
    | overflow ins o => exact ih
    | fault f => rfl

/-- The first fault on the way through blocks. -/
theorem told_reports (m : Machine) (arrivals : List Arrival) :
    (told (Arrival.reports m arrivals)).2 = arrivals.findSome? fun a => stop? m a.1.code a.2 := by
  induction arrivals with
  | nil => rfl
  | cons a rest ih =>
    show (told (ofCode m a.1.code a.2 ++ Arrival.reports m rest)).2 = _
    rw [told_append, ih, List.findSome?_cons]
    show (stop? m a.1.code a.2).or _ = _
    cases stop? m a.1.code a.2 <;> rfl

end Report

/-! ## The end of a course -/

namespace Course

/-- What a course ends with: facts, or the first fault on the way. -/
def outcome (m : Machine) (c : Course) : Except Misuse Facts :=
  match (Report.told (c.reports m)).2 with
  | none => .ok (Arrival.facts m c.arrivals)
  | some fault => .error fault

/-- The first fault of a course: on the way, or else what has ended the visits, or else at the
    end. -/
theorem told_reports (m : Machine) (c : Course) : (Report.told (c.reports m)).2
    = ((c.visits.findSome? fun a => Report.stop? m a.1.code a.2).or c.stop).or
        (c.arrivals.findSome? fun a => Report.stop? m a.1.code a.2) := by
  have hstop : (Report.told (c.stop.map Report.fault).toList).2 = c.stop := by
    cases c.stop <;> rfl
  unfold reports
  rw [Report.told_append, Report.told_append, Report.told_reports, Report.told_reports, hstop]

/-- A course ends with facts if nothing has ended it before and all blocks on the way run. -/
theorem outcome_eq_ok {m : Machine} {c : Course} {f : Facts} :
    c.outcome m = .ok f ↔ c.stop = none
      ∧ (∀ a ∈ c.visits ++ c.arrivals, Report.Runs m a.1.code a.2)
      ∧ f = Arrival.facts m c.arrivals := by
  have hnone : (Report.told (c.reports m)).2 = none ↔ c.stop = none
      ∧ ∀ a ∈ c.visits ++ c.arrivals, Report.Runs m a.1.code a.2 := by
    rw [told_reports]
    simp only [Option.or_eq_none_iff, List.findSome?_eq_none_iff, List.forall_mem_append,
      Report.Runs]
    tauto
  unfold outcome
  rw [← and_assoc, ← hnone]
  cases (Report.told (c.reports m)).2 with
  | none => simp [eq_comm]
  | some fault => simp

/-- What the visits of a course come to, or what has ended them, is what the course ends with. -/
theorem outcome_of_stop {m : Machine} {c : Course} {f : Misuse}
    (h : (c.visits.findSome? fun a => Report.stop? m a.1.code a.2).or c.stop = some f) :
    c.outcome m = .error f := by
  unfold outcome
  rw [told_reports, h]
  rfl

end Course

theorem Analysis.facts_eq_outcome (a : Analysis) (g : Graph) :
    (a.findings g).facts = (a.course g).outcome a.machine := by
  unfold findings Course.outcome
  dsimp only
  split
  · rename_i h
    rw [h]
  · rename_i h
    rw [h]

/-- The course of the solver that takes successors in the order of a schedule. -/
def Solver.course (m : Machine) (g : Graph) (schedule : Schedule) : Course :=
  let solver := solve m g schedule
  { visits := solver.history.reverse, stop := solver.stop, arrivals := solver.arrivals g }

/-- The analysis by the solver takes successors in the order of its schedule. -/
theorem Analysis.facts_worklist (m : Machine) (g : Graph) (schedule : Schedule) :
    (Analysis.findings { kind := .worklist, machine := m, schedule } g).facts
      = (Solver.course m g schedule).outcome m :=
  facts_eq_outcome _ _

/-- What has ended the solver is what its analysis ends with. -/
theorem Solver.outcome_of_stop {m : Machine} {g : Graph} (hnodup : g.labels.Nodup)
    {schedule : Schedule} {f : Misuse} (h : (solve m g schedule).stop = some f) :
    (course m g schedule).outcome m = .error f := by
  have hran := solve_ran hnodup m schedule
  refine Course.outcome_of_stop ?_
  show ((solve m g schedule).history.reverse.findSome? _).or (solve m g schedule).stop = some f
  -- All visits ran but perhaps the last one, and that one came to the same.
  cases hfirst : (solve m g schedule).history.reverse.findSome? fun a =>
      Report.stop? m a.1.code a.2 with
  | none => exact h
  | some f' =>
    obtain ⟨a, ha, hfault⟩ := List.exists_of_findSome?_eq_some hfirst
    rw [List.mem_reverse] at ha
    cases hhistory : (solve m g schedule).history with
    | nil =>
      rw [hhistory] at ha
      cases ha
    | cons last before =>
      obtain ⟨hbefore, hlast, -⟩ := hran
      rw [hhistory] at ha hbefore hlast
      rcases List.mem_cons.mp ha with rfl | ha
      · rw [h] at hlast
        exact (hlast _ rfl f' hfault).symm
      · cases (hbefore a ha).symm.trans hfault

namespace Graph

/-- All blocks of a graph run. -/
def Runs (m : Machine) (g : Graph) : Prop := ∀ b ∈ g.blocks, ∀ s, Report.Runs m b.code s

/-- A course that comes to all blocks shows that they run. -/
theorem runs_of_outcome {m : Machine} {w : Width} (hw : m.width = .whole w) {g : Graph}
    {c : Course} (hblocks : c.arrivals.map (·.1) = g.blocks) {f : Facts}
    (h : c.outcome m = .ok f) : g.Runs m := by
  intro b hb s
  rw [← hblocks] at hb
  obtain ⟨a, ha, rfl⟩ := List.mem_map.mp hb
  exact ((Course.outcome_eq_ok.mp h).2.1 a (List.mem_append_right _ ha)).any hw s

/-- All blocks run when each instruction can be run from every stack. -/
theorem runs_iff {m : Machine} {w : Width} (hw : m.width = .whole w) {g : Graph} :
    g.Runs m ↔ ∀ ins ∈ g.code, ∀ s f, Report.of? m ins s ≠ some (.fault f) := by
  constructor
  · intro h ins hins s f hfault
    obtain ⟨b, hb, hin⟩ := List.mem_flatMap.mp hins
    obtain ⟨front, back, hsplit⟩ := List.append_of_mem hin
    exact Report.runs_iff.mp (h b hb s) front ins back hsplit f
      (Report.of?_fault hw hfault (transfer m front s))
  · intro h b hb s
    refine Report.runs_iff.mpr fun front ins back hsplit f => h ins ?_ _ f
    exact List.mem_flatMap.mpr ⟨b, hb, hsplit ▸ List.mem_append_right _ List.mem_cons_self⟩

/-- Over blocks that run nothing ends the solver. -/
theorem Runs.stop {m : Machine} {g : Graph} (h : g.Runs m) (hformed : g.Formed)
    (hlinked : g.Linked) (schedule : Schedule) : (Solver.solve m g schedule).stop = none :=
  Solver.stop_eq_none (hformed.wired hlinked) h schedule

/-- Over blocks that run the solver ends with facts. -/
theorem Runs.outcome {m : Machine} {g : Graph} (h : g.Runs m) (hformed : g.Formed)
    (hlinked : g.Linked) (schedule : Schedule) :
    (Solver.course m g schedule).outcome m
      = .ok (Arrival.facts m ((Solver.solve m g schedule).arrivals g)) := by
  refine Course.outcome_eq_ok.mpr ⟨h.stop hformed hlinked schedule, fun a ha => ?_, rfl⟩
  rcases List.mem_append.mp ha with ha | ha
  · exact h a.1 (Solver.mem_of_mem_history hformed.labels_nodup (List.mem_reverse.mp ha)) a.2
  · obtain ⟨b, hb, rfl⟩ := List.mem_map.mp ha
    exact h b hb _

end Graph

end Untangle
