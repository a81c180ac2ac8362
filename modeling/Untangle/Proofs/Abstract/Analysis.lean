/-
  Untangle.Proofs.Abstract.Analysis

  What facts are worth. Whichever analysis has found them, an integer that a block is known
  to store or to dispatch on is the value at the top of the stack there, in every run that
  comes to the block along the edges.
-/
import Untangle.Proofs.Abstract.Course
import Untangle.Proofs.Abstract.Forward

namespace Untangle

open AbstractStack

/-- Facts that come from entry stacks that fit together. -/
def Facts.From (f : Facts) (m : Machine) (g : Graph) (stackAt? : Int → Option AbstractStack) :
    Prop :=
  Closed m g stackAt? ∧ f = Arrival.facts m (arrivalsOf g stackAt?)

namespace Analysis

/-- The course of either analysis ends with entry stacks that fit together, if nothing ends it
    before. -/
theorem course_closed (a : Analysis) {g : Graph} (hformed : g.Formed) (hlinked : g.Linked)
    (hstop : (a.course g).stop = none) :
    ∃ stackAt?, Closed a.machine g stackAt? ∧ (a.course g).arrivals = arrivalsOf g stackAt? := by
  obtain ⟨kind, machine, schedule⟩ := a
  cases kind with
  | forward => exact ⟨_, Forward.closed hformed hlinked, Forward.arrivals_eq hformed.labels_nodup⟩
  | worklist => exact ⟨_, Solver.closed hformed hlinked hstop, rfl⟩

/-- What an analysis has found out when it does not stop. -/
theorem findings_eq_ok {a : Analysis} {g : Graph} {f : Facts}
    (h : (a.findings g).facts = .ok f) : f = a.facts g := by
  rw [facts_eq_outcome] at h
  exact (Course.outcome_eq_ok.mp h).2.2

theorem findings_from {a : Analysis} {g : Graph} (hformed : g.Formed) (hlinked : g.Linked)
    {f : Facts} (h : (a.findings g).facts = .ok f) : ∃ stackAt?, f.From a.machine g stackAt? := by
  rw [facts_eq_outcome] at h
  obtain ⟨hstop, -, rfl⟩ := Course.outcome_eq_ok.mp h
  obtain ⟨stackAt?, hclosed, harrivals⟩ := a.course_closed hformed hlinked hstop
  exact ⟨stackAt?, hclosed, by rw [harrivals]⟩

end Analysis

namespace Facts.From

variable {f : Facts} {m : Machine} {g : Graph} {stackAt? : Int → Option AbstractStack}

/-- The integer that is known at the top of the stack, where an instruction takes it off. -/
theorem knownInt?_eq (h : f.From m g stackAt?) (hformed : g.Formed) {b : Block}
    (hb : b ∈ g.blocks) {before rest : List Instruction} {ins : Instruction}
    (hsplit : b.code = before ++ ins :: rest)
    (htakes : ins.opcode = some .storeLocal ∨ ins.opcode = some .switch) :
    f.knownInt? ins.uid
      = (transfer m before ((stackAt? b.label).getD .unknown)).pop.1.integer? := by
  have hblocks : (arrivalsOf g stackAt?).map (·.1) = g.blocks := by
    unfold arrivalsOf
    rw [List.map_map]
    exact List.map_id _
  rw [h.2, Untangle.knownInt?_eq hblocks hformed.uids_nodup (List.mem_map_of_mem hb) hsplit]
  unfold step
  rcases htakes with hop | hop <;> rw [hop] <;> rfl

/-- A known integer is at the top of the stack. -/
theorem top (h : f.From m g stackAt?) (hformed : g.Formed) {b : Block} (hb : b ∈ g.blocks)
    {before rest : List Instruction} {ins : Instruction}
    (hsplit : b.code = before ++ ins :: rest)
    (htakes : ins.opcode = some .storeLocal ∨ ins.opcode = some .switch) {n : Int}
    (hn : f.knownInt? ins.uid = some n) {P : Platform} (hP : P.machine = m) {σ τ : Moment}
    (henters : Enters stackAt? b.label σ) (hrun : Instruction.actAll P before σ = .next τ)
    {v : Value} {stack : List Value} (hv : τ.stack = v :: stack) : v = .int n := by
  obtain ⟨s, hs, hdescribes⟩ := henters
  rw [h.knownInt?_eq hformed hb hsplit htakes, hs, Option.getD_some, integer?_eq_some] at hn
  have hstraight : ∀ i ∈ before.dropLast, i.isBranch = false := by
    intro i hi
    refine hformed.isBranch_dropLast (Graph.mem_outline_of_mem hb) ?_
    rw [hsplit, List.dropLast_append_of_ne_nil (List.cons_ne_nil _ _)]
    exact List.mem_append_left _ (List.dropLast_subset _ hi)
  have hbefore := (hdescribes.transfer P hstraight).describes (Or.inl hrun)
  rw [hP, hv] at hbefore
  exact hbefore.top hn

end Facts.From

end Untangle
