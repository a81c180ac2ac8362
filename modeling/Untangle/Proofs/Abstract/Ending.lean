/-
  Untangle.Proofs.Abstract.Ending

  The solver ends on every graph, also where edges lead to blocks that are gone, and in
  whatever order they are followed (`Solver.solve_ends`). Roots wait in front of all other
  blocks and are never entered again, so none is visited twice; any other block is visited at
  most once more than the limit. An edge to a block that is gone ends the solver, but only
  when no root waits any more. An instruction that cannot be run ends it at once, and then
  some roots may not have been visited at all (`Method.shortEffect_unvisited`).
-/
import Mathlib.Logic.Function.Iterate
import Untangle.Graph.Build
import Untangle.Proofs.Abstract.Course

namespace Untangle

open AbstractStack

namespace Solver

variable {m : Machine} {g : Graph} {schedule : Schedule}

/-! ## Visit after visit -/

/-- The solver after a number of visits. -/
def after (m : Machine) (g : Graph) (schedule : Schedule) (n : Nat) : Solver :=
  (visit m g schedule g.rootStacks)^[n] (start g)

theorem after_succ (m : Machine) (g : Graph) (schedule : Schedule) (n : Nat) :
    after m g schedule (n + 1) = (after m g schedule n).visit m g schedule g.rootStacks :=
  Function.iterate_succ_apply' _ n _

/-- When nothing waits, there is nothing to visit. -/
theorem visit_of_idle {roots : List (Int × AbstractStack)} {s : Solver} (h : s.queue = []) :
    s.visit m g schedule roots = s := by
  unfold visit
  rw [h]

/-- After the last visit nothing changes any more. -/
theorem after_add {n : Nat} (h : (after m g schedule n).queue = []) (k : Nat) :
    after m g schedule (n + k) = after m g schedule n := by
  unfold after
  rw [Nat.add_comm, Function.iterate_add_apply]
  exact Function.iterate_fixed (visit_of_idle h) k

/-- A run is one visit after the other. -/
theorem run_eq_iterate (roots : List (Int × AbstractStack)) (fuel : Nat) (s : Solver) :
    run m g schedule roots fuel s = (visit m g schedule roots)^[fuel] s := by
  induction fuel generalizing s with
  | zero => rfl
  | succ fuel ih =>
    unfold run
    split
    · rename_i hidle
      exact (Function.iterate_fixed (visit_of_idle (List.isEmpty_iff.mp hidle)) _).symm
    · exact ih _

theorem solve_eq_after (m : Machine) (g : Graph) (schedule : Schedule) :
    solve m g schedule = after m g schedule ((visitLimit + 1) * g.blocks.length + 1) :=
  run_eq_iterate _ _ _

/-! ## What waits -/

/-- A block that is entered waits behind all others, if it did not wait before. -/
theorem enter_queue (s : Solver) (l : Int) (t : AbstractStack) :
    (s.enter l t).queue = s.queue ∨ (s.enter l t).queue = s.queue ++ [l] := by
  unfold enter enqueue
  dsimp only
  split
  · exact Or.inl rfl
  · exact Or.inr rfl

/-- All visits so far ran to the end. -/
def AllRan (m : Machine) (s : Solver) : Prop :=
  ∀ a ∈ s.history, Report.Runs m a.1.code a.2

/-- What holds between visits on every graph. -/
structure Orderly (m : Machine) (g : Graph) (s : Solver) : Prop extends Bounded g s where
  once : s.queue.Nodup
  entered : ∀ l ∈ s.queue, (s.entries.lookup l).isSome
  /-- Blocks of the graph wait in front; what waits behind them is no root. -/
  ahead : ∃ front others, s.queue = front ++ others ∧ (∀ l ∈ front, l ∈ g.labels)
    ∧ ∀ l ∈ others, g.rootStacks.lookup l = none
  /-- A root waits once at most, and not again after it has been visited. -/
  rare : ∀ l ∈ g.labels, (g.rootStacks.lookup l).isSome → s.load l ≤ 1
  /-- A root has been visited or is going to be, unless a visit has ended the solver. -/
  loaded : AllRan m s → ∀ l ∈ g.labels, (g.rootStacks.lookup l).isSome → s.load l = 1

namespace Orderly

variable {s : Solver}

theorem flow (h : Orderly m g s) (out : AbstractStack) (succ : Int) :
    Orderly m g (s.flow g.rootStacks out succ) := by
  have hbounded := h.toBounded.flow g.rootStacks out succ
  rcases flow_cases g.rootStacks out s succ with ⟨hstays, -⟩ | ⟨hinner, new, henters, -⟩
  · rw [hstays]
    exact h
  · rw [henters] at hbounded ⊢
    have hload {l : Int} (hroot : (g.rootStacks.lookup l).isSome) :
        (s.enter succ new).load l = s.load l := by
      refine load_enter_of_ne s ?_ new
      rintro rfl
      rw [hinner] at hroot
      cases hroot
    constructor
    case toBounded => exact hbounded
    case once => exact enter_queue_nodup h.once succ new
    case entered =>
      intro l hl
      by_cases hsucc : l = succ
      · rw [hsucc, enter_entry_self]
        rfl
      · rw [enter_entry_of_ne s new hsucc]
        exact h.entered l ((mem_enter_queue.mp hl).resolve_right hsucc)
    case ahead =>
      -- What is entered is no root, so it may wait behind.
      obtain ⟨front, others, hqueue, hfront, hothers⟩ := h.ahead
      rcases enter_queue s succ new with hsame | hmore
      · exact ⟨front, others, hsame.trans hqueue, hfront, hothers⟩
      · refine ⟨front, others ++ [succ], ?_, hfront, fun l hl => ?_⟩
        · rw [hmore, hqueue, List.append_assoc]
        · rcases List.mem_append.mp hl with hl | hl
          · exact hothers l hl
          · rw [List.mem_singleton.mp hl]
            exact hinner
    case rare =>
      intro l hl hroot
      rw [hload hroot]
      exact h.rare l hl hroot
    case loaded =>
      intro hran l hl hroot
      unfold AllRan at hran
      rw [enter_history] at hran
      rw [hload hroot]
      exact h.loaded hran l hl hroot

theorem flows (h : Orderly m g s) (out : AbstractStack) (succs : List Int) :
    Orderly m g (succs.foldl (Solver.flow g.rootStacks out) s) := by
  induction succs generalizing s with
  | nil => exact h
  | cons succ succs ih => exact ih (h.flow out succ)

/-- The solver may be ended when no root waits, or when a visit did not run. -/
theorem stopped (h : Orderly m g s) (f : Misuse)
    (hwhy : (∀ l ∈ s.queue, g.rootStacks.lookup l = none) ∨ ¬AllRan m s) :
    Orderly m g (s.stopped f) := by
  have hload (l : Int) : (s.stopped f).load l = s.visits l := by
    show _ + (if l ∈ [] then 1 else 0) = _
    rw [if_neg List.not_mem_nil]
    rfl
  constructor
  case toBounded => exact h.toBounded.stopped f
  case once => exact List.nodup_nil
  case entered => nofun
  case ahead => exact ⟨[], [], rfl, nofun, nofun⟩
  case rare =>
    intro l hl hroot
    rw [hload]
    exact (visits_le_load s l).trans (h.rare l hl hroot)
  case loaded =>
    intro hran l hl hroot
    -- All visits ran, so no root waits, and what counts for one is visits alone.
    have hnot : l ∉ s.queue := by
      intro hin
      rw [hwhy.resolve_right (not_not_intro hran) l hin] at hroot
      cases hroot
    have hbefore := h.loaded hran l hl hroot
    rw [load, if_neg hnot] at hbefore
    rw [hload]
    exact hbefore

/-- When the block in front is gone, no root waits: it would wait in front. -/
theorem inner_of_gone (h : Orderly m g s) {l : Int} {rest : List Int} (hqueue : s.queue = l :: rest)
    (hgone : l ∉ g.labels) : ∀ k ∈ s.queue, g.rootStacks.lookup k = none := by
  obtain ⟨front, others, hsplit, hfront, hothers⟩ := h.ahead
  cases front with
  | nil => rwa [hsplit]
  | cons k front =>
    rw [hqueue] at hsplit
    cases hsplit
    exact absurd (hfront l List.mem_cons_self) hgone

/-- The block at the front of the queue is taken off. -/
theorem popped (h : Orderly m g s) {b : Block} {rest : List Int} (hb : b ∈ g.blocks)
    (hqueue : s.queue = b.label :: rest) : Orderly m g (s.popped b rest) := by
  have honce := h.once
  rw [hqueue, List.nodup_cons] at honce
  have hsome := h.entered b.label (hqueue ▸ List.mem_cons_self)
  have hload (l : Int) : (s.popped b rest).load l = s.load l := load_popped h.once hqueue l
  constructor
  case toBounded =>
    exact h.toBounded.popped hqueue honce.1 (Graph.mem_labels_of_mem hb) hsome
  case once => exact honce.2
  case entered => exact fun l hl => h.entered l (hqueue ▸ List.mem_cons_of_mem _ hl)
  case ahead =>
    obtain ⟨front, others, hsplit, hfront, hothers⟩ := h.ahead
    rw [hqueue] at hsplit
    cases front with
    | nil =>
      refine ⟨[], rest, rfl, nofun, fun l hl => hothers l ?_⟩
      rw [← List.nil_append others, ← hsplit]
      exact List.mem_cons_of_mem _ hl
    | cons k front =>
      cases hsplit
      exact ⟨front, others, rfl, fun l hl => hfront l (List.mem_cons_of_mem _ hl), hothers⟩
  case rare =>
    intro l hl hroot
    rw [hload]
    exact h.rare l hl hroot
  case loaded =>
    intro hran l hl hroot
    rw [hload]
    exact h.loaded (fun a ha => hran a (List.mem_cons_of_mem _ ha)) l hl hroot

/-- A visit takes one block off the queue, or ends the run. -/
theorem visit (h : Orderly m g s) (hnodup : g.labels.Nodup) (schedule : Schedule) :
    Orderly m g (s.visit m g schedule g.rootStacks)
      ∧ ((s.visit m g schedule g.rootStacks).queue = []
        ∨ (s.visit m g schedule g.rootStacks).history.length = s.history.length + 1) := by
  have hdoes := visit_does m schedule g.rootStacks hnodup s
  generalize s.visit m g schedule g.rootStacks = s' at hdoes ⊢
  cases hdoes with
  | idle hqueue => exact ⟨h, Or.inl hqueue⟩
  | gone hqueue hgone =>
    exact ⟨h.stopped _ (Or.inl (h.inner_of_gone hqueue hgone)), Or.inl rfl⟩
  | fault hb hqueue hfault =>
    -- Roots may wait still, but the visit that has just been made did not run.
    refine ⟨(h.popped hb hqueue).stopped _ (Or.inr ?_), Or.inl rfl⟩
    intro hran
    cases hfault.symm.trans (hran _ List.mem_cons_self)
  | same hb hqueue => exact ⟨h.popped hb hqueue, Or.inr rfl⟩
  | @flows b rest hb hqueue =>
    -- Nothing here depends on the stacks after the blocks.
    have hadvanced : Orderly m g (s.advanced m b rest) := { h.popped hb hqueue with }
    refine ⟨hadvanced.flows _ _, Or.inr ?_⟩
    rw [flows_history]
    rfl

end Orderly

/-- Before the first visit the roots wait. -/
theorem start_orderly (m : Machine) (hnodup : g.labels.Nodup) : Orderly m g (start g) := by
  have hload {l : Int} (hl : l ∈ g.labels) (hroot : (g.rootStacks.lookup l).isSome) :
      (start g).load l = 1 := load_of_mem (List.mem_filter.mpr ⟨hl, hroot⟩)
  constructor
  case toBounded => exact start_bounded g
  case once => exact hnodup.filter _
  case entered => exact fun l hl => (List.mem_filter.mp hl).2
  case ahead =>
    exact ⟨(start g).queue, [], (List.append_nil _).symm, fun _ hl => (List.mem_filter.mp hl).1,
      nofun⟩
  case rare => exact fun l hl hroot => (hload hl hroot).le
  case loaded => exact fun _ l hl hroot => hload hl hroot

/-- Between visits all is in order, and each visit counts until nothing waits. -/
theorem after_orderly (hnodup : g.labels.Nodup) (m : Machine) (schedule : Schedule) (n : Nat) :
    Orderly m g (after m g schedule n)
      ∧ ((after m g schedule n).queue = [] ∨ n ≤ (after m g schedule n).history.length) := by
  induction n with
  | zero => exact ⟨start_orderly m hnodup, Or.inr (Nat.le_refl _)⟩
  | succ n ih =>
    obtain ⟨horderly, hcount⟩ := ih
    obtain ⟨hnext, hvisit⟩ := horderly.visit hnodup schedule
    rw [after_succ]
    refine ⟨hnext, ?_⟩
    rcases hcount with hidle | hcount
    · rw [visit_of_idle hidle]
      exact Or.inl hidle
    · exact hvisit.imp_right fun hone => by omega

/-- There are no more visits than the limit allows all blocks together. -/
theorem after_idle (hnodup : g.labels.Nodup) (m : Machine) (schedule : Schedule) {n : Nat}
    (hn : (visitLimit + 1) * g.blocks.length < n) : (after m g schedule n).queue = [] := by
  obtain ⟨horderly, hcount⟩ := after_orderly hnodup m schedule n
  -- As long as something waits each visit counts, and there would be too many.
  refine hcount.resolve_right fun hle => ?_
  have hmost := horderly.history_le
  omega

/-! ## Entered knowing nothing -/

/-- Where nothing is known, nothing that comes in is new. -/
theorem flow_unknown {roots : List (Int × AbstractStack)} {s : Solver} {l : Int}
    (h : s.entries.lookup l = some .unknown) (out : AbstractStack) (succ : Int) :
    (s.flow roots out succ).entries.lookup l = some .unknown := by
  rcases flow_cases roots out s succ with ⟨hstays, -⟩ | ⟨-, new, henters, harrives⟩
  · rw [hstays]
    exact h
  · have hne : l ≠ succ := by
      rintro rfl
      have hchanged := harrives.changed _ h
      cases hchanged
    rw [henters, enter_entry_of_ne s new hne]
    exact h

theorem visit_unknown (hnodup : g.labels.Nodup) {s : Solver} {l : Int}
    (h : s.entries.lookup l = some .unknown) :
    (s.visit m g schedule g.rootStacks).entries.lookup l = some .unknown := by
  have hflows (out : AbstractStack) (succs : List Int) {s : Solver}
      (h : s.entries.lookup l = some .unknown) :
      (succs.foldl (flow g.rootStacks out) s).entries.lookup l = some .unknown := by
    induction succs generalizing s with
    | nil => exact h
    | cons succ succs ih => exact ih (flow_unknown h out succ)
  have hdoes := visit_does m schedule g.rootStacks hnodup s
  generalize s.visit m g schedule g.rootStacks = s' at hdoes ⊢
  cases hdoes with
  | flows => exact hflows _ _ h
  | _ => exact h

/-! ## The end -/

/-- Over any graph, with edges to whatever labels, and in whatever order edges are followed, the
    solver comes to the end of its queue, and more visits would change nothing. Any block has
    been visited at most once more than the limit. A root that the graph has a block for has been
    visited at most once, and just once if all visits ran. Only the last visit may have come to an
    instruction that cannot be run; then that has ended the solver, and whatever has ended it is
    what its analysis ends with. A block that is entered knowing nothing stays so. -/
theorem solve_ends (g : Graph) (hlabels : g.labels.Nodup) (m : Machine) (schedule : Schedule) :
    (solve m g schedule).queue = []
      ∧ (∀ n, (visitLimit + 1) * g.blocks.length < n →
        after m g schedule n = solve m g schedule)
      ∧ (∀ l, (solve m g schedule).visits l ≤ visitLimit + 1)
      ∧ (∀ l ∈ g.labels, l ∈ g.roots → (solve m g schedule).visits l ≤ 1
        ∧ (AllRan m (solve m g schedule) → (solve m g schedule).visits l = 1))
      ∧ (∀ a ∈ (solve m g schedule).history.tail, Report.Runs m a.1.code a.2)
      ∧ (∀ a ∈ (solve m g schedule).history.head?, ∀ f,
        Report.stop? m a.1.code a.2 = some f → (solve m g schedule).stop = some f)
      ∧ (∀ f, (solve m g schedule).stop = some f →
        (course m g schedule).outcome m = .error f)
      ∧ ∀ n k l, (after m g schedule n).entries.lookup l = some .unknown →
        (after m g schedule (n + k)).entries.lookup l = some .unknown := by
  have hidle : (solve m g schedule).queue = [] := by
    rw [solve_eq_after]
    exact after_idle hlabels m schedule (Nat.lt_succ_self _)
  have horderly : Orderly m g (solve m g schedule) := by
    rw [solve_eq_after]
    exact (after_orderly hlabels m schedule _).1
  have hload (l : Int) : (solve m g schedule).load l = (solve m g schedule).visits l := by
    rw [load, hidle, if_neg List.not_mem_nil]
    rfl
  obtain ⟨hbefore, hlast, -⟩ := solve_ran hlabels m schedule
  refine ⟨hidle, fun n hn => ?_, horderly.most, fun l hl hroot => ?_, hbefore, hlast,
    fun f hstop => outcome_of_stop hlabels hstop, fun n k l h => ?_⟩
  · obtain ⟨k, rfl⟩ := Nat.exists_eq_add_of_le hn
    rw [solve_eq_after] at hidle ⊢
    exact after_add hidle k
  · obtain ⟨r, hr⟩ := Graph.rootStacks_isSome hroot
    have hsome : (g.rootStacks.lookup l).isSome := by
      rw [hr]
      rfl
    rw [← hload]
    exact ⟨horderly.rare l hl hsome, fun hran => horderly.loaded hran l hl hsome⟩
  · induction k with
    | zero => exact h
    | succ k ih =>
      rw [← Nat.add_assoc, after_succ]
      exact visit_unknown hlabels ih

/-- A loop that pushes a constant in each round, with an edge to a block that is gone. -/
def brokenLoop : Graph where
  blocks :=
    [{ label := 0, succs := [1], isEntry := true },
     { label := 1, preds := [0, 1], succs := [1, 7],
       code := [{ opcode := some .pushConst, operand := .value (.int 5), uid := 1 }] }]

/-- The loop is visited twice. After that it is entered knowing nothing, and the solver is ended
    at the block that is gone. -/
theorem brokenLoop_ends :
    brokenLoop.labels.Nodup
      ∧ (solve {} brokenLoop .plain).queue = []
      ∧ (solve {} brokenLoop .plain).stop = some .noSuchKey
      ∧ (course {} brokenLoop .plain).outcome {} = .error .noSuchKey
      ∧ (∀ n, 130 < n → after {} brokenLoop .plain n = solve {} brokenLoop .plain)
      ∧ 0 ∈ brokenLoop.roots ∧ (solve {} brokenLoop .plain).visits 0 = 1
      ∧ (solve {} brokenLoop .plain).visits 1 = 2
      ∧ (after {} brokenLoop .plain 2).entries.lookup 1 = some .unknown
      ∧ ∀ k, (after {} brokenLoop .plain (2 + k)).entries.lookup 1 = some .unknown := by
  have hlabels : brokenLoop.labels.Nodup := by decide
  have hroot : 0 ∈ brokenLoop.roots := by decide
  have hstop : (solve {} brokenLoop .plain).stop = some .noSuchKey := by decide +kernel
  have hran : AllRan {} (solve {} brokenLoop .plain) := by
    unfold AllRan Report.Runs
    decide +kernel
  have hunknown : (after {} brokenLoop .plain 2).entries.lookup 1 = some .unknown := rfl
  obtain ⟨hidle, hlast, -, hroots, -, -, hends, hstays⟩ := solve_ends brokenLoop hlabels {} .plain
  exact ⟨hlabels, hidle, hstop, hends _ hstop, hlast, hroot,
    (hroots 0 (by decide) hroot).2 hran, by decide +kernel, hunknown,
    fun k => hstays 2 k 1 hunknown⟩

end Solver

namespace Method

/-- An instruction that declares half an effect, guarded by a handler. -/
def shortEffect : Method where
  code :=
    [{ opcode := some .other, uid := 0, mnemonic := .str "call", effect := some [.int 1] },
     { opcode := some .leave, operand := .value (.int 6), uid := 1 },
     { opcode := some .pushConst, operand := .value (.int 2147483647), uid := 2 },
     { opcode := some .pushConst, operand := .value (.int 1), uid := 3 },
     { opcode := some .arith, operand := .operation .add, uid := 4 },
     { opcode := some .leave, operand := .value (.int 6), uid := 5 },
     { opcode := some .other, uid := 6, mnemonic := .str "ret" }]
  regions :=
    [{ kind := .catch, tryStart := .int 0, tryEnd := .int 1, handlerStart := .int 2,
       handlerEnd := .int 5 }]

/-- The handler is a root, and in no order of successors is it visited: the instruction in front
    has ended the solver before. -/
theorem shortEffect_unvisited : ∃ g, Graph.build shortEffect Graph.usualTerminators = .ok g
    ∧ g.labels.Nodup ∧ 2 ∈ g.labels ∧ 2 ∈ g.roots
    ∧ ∀ schedule, (Solver.solve {} g schedule).visits 2 = 0
      ∧ (Solver.solve {} g schedule).stop = some .wrongCount := by
  refine ⟨_, rfl, ?_, ?_, ?_, fun schedule => ⟨?_, ?_⟩⟩
  · decide
  · decide
  · decide
  · rfl
  · rfl

end Method

end Untangle
