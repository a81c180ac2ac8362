/-
  Untangle.Proofs.Abstract.Solver

  The fixed-point solver. Entry stacks only ever come to know less, so the stack after a
  block keeps knowing what its successors were told (`Consistent`); and a block that is
  visited too often is entered knowing nothing, so that it does not wait again (`Bounded`).
  The solver therefore comes to an empty queue. If no instruction has stopped it on the way,
  the entry stacks that it has found by then fit together.
-/
import Untangle.Abstract.Solver
import Untangle.Proofs.Abstract.Closed
import Untangle.Proofs.Abstract.Join

namespace Untangle

open AbstractStack

namespace Solver

variable {m : Machine} {g : Graph} {roots : List (Int × AbstractStack)}

/-! ## One edge -/

@[simp] theorem enter_exits (s : Solver) (l : Int) (t : AbstractStack) :
    (s.enter l t).exits = s.exits := by
  unfold enter enqueue
  split <;> rfl

@[simp] theorem enter_history (s : Solver) (l : Int) (t : AbstractStack) :
    (s.enter l t).history = s.history := by
  unfold enter enqueue
  split <;> rfl

@[simp] theorem enter_stop (s : Solver) (l : Int) (t : AbstractStack) :
    (s.enter l t).stop = s.stop := by
  unfold enter enqueue
  split <;> rfl

theorem enter_entries (s : Solver) (l : Int) (t : AbstractStack) :
    (s.enter l t).entries = Entries.put l t s.entries := by
  unfold enter enqueue
  split <;> rfl

theorem enter_entry_self (s : Solver) (l : Int) (t : AbstractStack) :
    (s.enter l t).entries.lookup l = some t := by
  rw [enter_entries, Entries.put, Entries.lookup_update_self]

theorem enter_entry_of_ne (s : Solver) {l l' : Int} (t : AbstractStack) (h : l' ≠ l) :
    (s.enter l t).entries.lookup l' = s.entries.lookup l' := by
  rw [enter_entries, Entries.put, Entries.lookup_update_of_ne _ _ h]

theorem mem_enter_queue {s : Solver} {l l' : Int} {t : AbstractStack} :
    l' ∈ (s.enter l t).queue ↔ l' ∈ s.queue ∨ l' = l := by
  unfold enter enqueue
  dsimp only
  split
  · rename_i hin
    rw [List.contains_iff_mem] at hin
    refine ⟨Or.inl, ?_⟩
    rintro (h | rfl)
    · exact h
    · exact hin
  · rw [List.mem_append, List.mem_singleton]

theorem enter_queue_nodup {s : Solver} (h : s.queue.Nodup) (l : Int) (t : AbstractStack) :
    (s.enter l t).queue.Nodup := by
  unfold enter enqueue
  dsimp only
  split
  · exact h
  · rename_i hnot
    rw [List.contains_iff_mem] at hnot
    exact List.nodup_append.mpr ⟨h, List.nodup_singleton _, fun a ha b hb heq =>
      hnot (List.mem_singleton.mp hb ▸ heq ▸ ha)⟩

@[simp] theorem enter_visits (s : Solver) (l : Int) (t : AbstractStack) (label : Int) :
    (s.enter l t).visits label = s.visits label := by
  rw [visits, visits, enter_history]

/-- A stack that a block is newly entered with, given the stack that comes in: that stack, or
    its join with the old one, or nothing known after too many visits. -/
structure Arrives (s : Solver) (succ : Int) (out new : AbstractStack) : Prop where
  changed : ∀ old, s.entries.lookup succ = some old → (old.join out).same old = false
  tired : visitLimit ≤ s.visits succ → new = .unknown ∧ s.entries.lookup succ ≠ some .unknown
  first : s.entries.lookup succ = none → s.visits succ < visitLimit → new = out
  joined : ∀ old, s.entries.lookup succ = some old → s.visits succ < visitLimit →
    new = old.join out

namespace Arrives

variable {s : Solver} {succ : Int} {out old new : AbstractStack}

/-- A block is entered for the first time. -/
theorem of_first (hnew : s.entries.lookup succ = none) :
    Arrives s succ out (if visitLimit ≤ s.visits succ then .unknown else out) := by
  constructor
  case changed =>
    intro old hold
    cases hnew.symm.trans hold
  case tired =>
    intro htired
    rw [if_pos htired, hnew]
    exact ⟨rfl, nofun⟩
  case first => exact fun _ hfew => if_neg (Nat.not_le_of_lt hfew)
  case joined =>
    intro old hold
    cases hnew.symm.trans hold

/-- A block is entered again with the join, which knows less than before. -/
theorem of_join (hold : s.entries.lookup succ = some old)
    (hchanged : (old.join out).same old = false) (hfew : ¬visitLimit ≤ s.visits succ) :
    Arrives s succ out (old.join out) := by
  constructor
  case changed =>
    intro o ho
    cases hold.symm.trans ho
    exact hchanged
  case tired => exact fun htired => absurd htired hfew
  case first =>
    intro hnew
    cases hold.symm.trans hnew
  case joined =>
    intro o ho _
    cases hold.symm.trans ho
    rfl

/-- A block that has been visited too often is entered knowing nothing. -/
theorem of_tired (hold : s.entries.lookup succ = some old)
    (hchanged : (old.join out).same old = false) (htired : visitLimit ≤ s.visits succ)
    (hknown : AbstractStack.unknown.same old ≠ true) : Arrives s succ out .unknown := by
  constructor
  case changed =>
    intro o ho
    cases hold.symm.trans ho
    exact hchanged
  case tired =>
    refine fun _ => ⟨rfl, fun h => ?_⟩
    cases hold.symm.trans h
    exact hknown rfl
  case first => exact fun _ hfew => absurd htired (Nat.not_le_of_lt hfew)
  case joined => exact fun _ _ hfew => absurd htired (Nat.not_le_of_lt hfew)

/-- No more is known than of the stack that comes in. -/
theorem under (h : Arrives s succ out new) : Under new out := by
  by_cases htired : visitLimit ≤ s.visits succ
  · rw [(h.tired htired).1]
    exact unknown_under out
  · cases hold : s.entries.lookup succ with
    | none =>
      rw [h.first hold (Nat.lt_of_not_le htired)]
      exact Under.refl out
    | some old =>
      rw [h.joined old hold (Nat.lt_of_not_le htired)]
      exact join_under old out

/-- No more is known than before. -/
theorem lower (h : Arrives s succ out new) {old : AbstractStack}
    (hold : s.entries.lookup succ = some old) : Lower new old := by
  by_cases htired : visitLimit ≤ s.visits succ
  · rw [(h.tired htired).1]
    exact unknown_lower old
  · rw [h.joined old hold (Nat.lt_of_not_le htired)]
    exact join_lower old out

end Arrives

/-- The successor knows no more than what comes in, unless it is a root. -/
def Covers (roots : List (Int × AbstractStack)) (s : Solver) (out : AbstractStack)
    (l : Int) : Prop :=
  (roots.lookup l).isSome ∨ ∃ t, s.entries.lookup l = some t ∧ Under t out

/-- What following an edge can do. -/
theorem flow_cases (roots : List (Int × AbstractStack)) (out : AbstractStack) (s : Solver)
    (succ : Int) :
    (flow roots out s succ = s ∧ Covers roots s out succ)
      ∨ (roots.lookup succ = none
        ∧ ∃ new, flow roots out s succ = s.enter succ new ∧ Arrives s succ out new) := by
  unfold flow
  cases hroot : roots.lookup succ with
  | some r => exact Or.inl ⟨rfl, Or.inl (by rw [hroot]; rfl)⟩
  | none =>
    dsimp only
    rw [if_neg (by simp)]
    cases hold : s.entries.lookup succ with
    | none => exact Or.inr ⟨rfl, _, rfl, .of_first hold⟩
    | some old =>
      dsimp only
      by_cases hsame : (old.join out).same old = true
      · rw [if_pos hsame]
        refine Or.inl ⟨rfl, Or.inr ⟨old, hold, ?_⟩⟩
        have hlower : Lower old (old.join out) := .of_same (join_lower old out) (Or.inl hsame)
        exact hlower.under.trans (join_under old out)
      · rw [if_neg hsame]
        have hchanged : (old.join out).same old = false := Bool.eq_false_iff.mpr hsame
        by_cases htired : visitLimit ≤ s.visits succ
        · rw [if_pos htired]
          by_cases hunknown : AbstractStack.unknown.same old = true
          · rw [if_pos hunknown]
            refine Or.inl ⟨rfl, Or.inr ⟨old, hold, ?_⟩⟩
            rw [eq_unknown_of_same hunknown]
            exact unknown_under out
          · rw [if_neg hunknown]
            exact Or.inr ⟨rfl, _, rfl, .of_tired hold hchanged htired hunknown⟩
        · rw [if_neg htired]
          exact Or.inr ⟨rfl, _, rfl, .of_join hold hchanged htired⟩

/-- Following edges makes no visit. -/
@[simp] theorem flows_history (roots : List (Int × AbstractStack)) (out : AbstractStack)
    (succs : List Int) (s : Solver) :
    (succs.foldl (flow roots out) s).history = s.history := by
  induction succs generalizing s with
  | nil => rfl
  | cons l succs ih =>
    rw [List.foldl_cons, ih]
    rcases flow_cases roots out s l with ⟨hstays, -⟩ | ⟨-, new, henters, -⟩
    · rw [hstays]
    · rw [henters, enter_history]

/-- Following edges does not end the solver. -/
@[simp] theorem flows_stop (roots : List (Int × AbstractStack)) (out : AbstractStack)
    (succs : List Int) (s : Solver) : (succs.foldl (flow roots out) s).stop = s.stop := by
  induction succs generalizing s with
  | nil => rfl
  | cons l succs ih =>
    rw [List.foldl_cons, ih]
    rcases flow_cases roots out s l with ⟨hstays, -⟩ | ⟨-, new, henters, -⟩
    · rw [hstays]
    · rw [henters, enter_stop]

/-! ## One visit -/

/-- The stack that a block is visited with. -/
def stackOf (s : Solver) (l : Int) : AbstractStack := (s.entries.lookup l).getD .unknown

/-- The solver after the block at the front of the queue has been taken off. -/
def popped (s : Solver) (b : Block) (rest : List Int) : Solver :=
  { s with queue := rest, history := (b, s.stackOf b.label) :: s.history }

/-- The solver before the edges of the block at the front of the queue are followed. -/
def advanced (m : Machine) (s : Solver) (b : Block) (rest : List Int) : Solver :=
  { s.popped b rest with
    exits := Entries.put b.label (transfer m b.code (s.stackOf b.label)) s.exits }

/-- The solver when something has ended it: nothing waits any more. -/
def stopped (s : Solver) (f : Misuse) : Solver := { s with queue := [], stop := some f }

theorem visits_popped (s : Solver) (b : Block) (rest : List Int) (l : Int) :
    (s.popped b rest).visits l = s.visits l + if b.label = l then 1 else 0 := by
  unfold visits popped
  rw [List.countP_cons]
  simp only [beq_iff_eq]

/-- What a visit can do: nothing if nothing waits; stop at a block that is gone, or in a block
    that does not run; or find the same stack after the block as the last visit did; or follow
    the edges. -/
inductive Visit (m : Machine) (g : Graph) (schedule : Schedule) (roots : List (Int × AbstractStack))
    (s : Solver) : Solver → Prop where
  | idle (hqueue : s.queue = []) : Visit m g schedule roots s s
  | gone {l : Int} {rest : List Int} (hqueue : s.queue = l :: rest) (hgone : l ∉ g.labels) :
    Visit m g schedule roots s (s.stopped .noSuchKey)
  | fault {b : Block} {rest : List Int} {f : Misuse} (hb : b ∈ g.blocks)
    (hqueue : s.queue = b.label :: rest)
    (hfault : Report.stop? m b.code (s.stackOf b.label) = some f) :
    Visit m g schedule roots s ((s.popped b rest).stopped f)
  | same {b : Block} {rest : List Int} {old : AbstractStack} (hb : b ∈ g.blocks)
    (hqueue : s.queue = b.label :: rest)
    (hruns : Report.stop? m b.code (s.stackOf b.label) = none)
    (hold : s.exits.lookup b.label = some old)
    (hsame : old.same (transfer m b.code (s.stackOf b.label)) = true) :
    Visit m g schedule roots s (s.popped b rest)
  | flows {b : Block} {rest : List Int} (hb : b ∈ g.blocks) (hqueue : s.queue = b.label :: rest)
    (hruns : Report.stop? m b.code (s.stackOf b.label) = none) :
    Visit m g schedule roots s ((schedule.order s.history.length b.succs).foldl
      (flow roots (transfer m b.code (s.stackOf b.label))) (s.advanced m b rest))

theorem visit_does (m : Machine) (schedule : Schedule) (roots : List (Int × AbstractStack))
    (hnodup : g.labels.Nodup) (s : Solver) :
    Visit m g schedule roots s (s.visit m g schedule roots) := by
  unfold visit
  cases hqueue : s.queue with
  | nil => exact .idle hqueue
  | cons l rest =>
    dsimp only
    cases hblock : g.block? l with
    | none =>
      refine .gone hqueue fun hl => ?_
      obtain ⟨b, hb, rfl⟩ := List.mem_map.mp hl
      rw [Graph.block?_of_mem hnodup hb] at hblock
      cases hblock
    | some b =>
      obtain ⟨hb, rfl⟩ := Graph.block?_eq_some hblock
      dsimp only
      split
      · rename_i f hfault
        exact .fault hb hqueue hfault
      · rename_i hruns
        split
        · rename_i hsame
          obtain ⟨old, hold, hsame⟩ := (Option.any_eq_true ..).mp hsame
          exact .same hb hqueue hruns hold hsame
        · exact .flows hb hqueue hruns

/-! ## Stacks that fit together -/

/-- Entry stacks only come to know less. -/
def Descends (s s' : Solver) : Prop :=
  ∀ l t, s.entries.lookup l = some t → ∃ t', s'.entries.lookup l = some t' ∧ Lower t' t

theorem Covers.descends {s s' : Solver} {out : AbstractStack} {l : Int}
    (h : Covers roots s out l) (hs : s.Descends s') : Covers roots s' out l := by
  rcases h with hroot | ⟨t, ht, hunder⟩
  · exact Or.inl hroot
  · obtain ⟨t', ht', hlower⟩ := hs l t ht
    exact Or.inr ⟨t', ht', hlower.under.trans hunder⟩

/-- What holds of the solver between visits, and with some edges pending also within one:
    the stack after the last visit of a block knows what its successors know. -/
structure Consistent (m : Machine) (g : Graph) (roots : List (Int × AbstractStack))
    (pending : List (Int × Int)) (s : Solver) : Prop where
  queue_nodup : s.queue.Nodup
  queued : ∀ l ∈ s.queue, l ∈ g.labels ∧ (s.entries.lookup l).isSome
  fixed : ∀ l r, roots.lookup l = some r → s.entries.lookup l = some r
  exits : ∀ b ∈ g.blocks, ∀ out, s.exits.lookup b.label = some out →
    (∃ e, s.entries.lookup b.label = some e ∧ Lower (transfer m b.code e) out)
      ∧ ∀ l ∈ b.succs, Covers roots s out l ∨ (b.label, l) ∈ pending
  settled : s.stop = none → ∀ b ∈ g.blocks, b.label ∉ s.queue → ∀ e,
    s.entries.lookup b.label = some e →
      ∃ out, s.exits.lookup b.label = some out ∧ Lower out (transfer m b.code e)

/-- An edge that has been covered is not pending any more. -/
theorem Consistent.settle {pending : List (Int × Int)} {s : Solver} {p succ : Int}
    {out : AbstractStack} (h : Consistent m g roots ((p, succ) :: pending) s)
    (hout : s.exits.lookup p = some out) (hcovers : Covers roots s out succ) :
    Consistent m g roots pending s where
  queue_nodup := h.queue_nodup
  queued := h.queued
  fixed := h.fixed
  settled := h.settled
  exits b hb o ho := by
    obtain ⟨hentry, hsuccs⟩ := h.exits b hb o ho
    refine ⟨hentry, fun l hl => ?_⟩
    rcases hsuccs l hl with hcov | hpending
    · exact Or.inl hcov
    · rcases List.mem_cons.mp hpending with heq | hpending
      · cases heq
        rw [hout] at ho
        cases ho
        exact Or.inl hcovers
      · exact Or.inr hpending

/-- A block that is not a root may be entered with a stack below the one that it had. -/
theorem Consistent.enter {pending : List (Int × Int)} {s : Solver} {l : Int} {new : AbstractStack}
    (h : Consistent m g roots pending s) (hl : l ∈ g.labels) (hroot : roots.lookup l = none)
    (hlower : ∀ t, s.entries.lookup l = some t → Lower new t) :
    Consistent m g roots pending (s.enter l new) := by
  have hdescends : s.Descends (s.enter l new) := by
    intro k t ht
    by_cases hk : k = l
    · subst hk
      exact ⟨new, enter_entry_self s k new, hlower t ht⟩
    · exact ⟨t, (enter_entry_of_ne s new hk).trans ht, Lower.refl t⟩
  constructor
  case queue_nodup => exact enter_queue_nodup h.queue_nodup l new
  case queued =>
    intro k hk
    rcases mem_enter_queue.mp hk with hk | rfl
    · obtain ⟨hlabel, hsome⟩ := h.queued k hk
      obtain ⟨t, ht⟩ := Option.isSome_iff_exists.mp hsome
      obtain ⟨t', ht', -⟩ := hdescends k t ht
      exact ⟨hlabel, by rw [ht']; rfl⟩
    · exact ⟨hl, by rw [enter_entry_self]; rfl⟩
  case fixed =>
    intro k r hr
    have hne : k ≠ l := by rintro rfl; rw [hroot] at hr; cases hr
    rw [enter_entry_of_ne s new hne]
    exact h.fixed k r hr
  case exits =>
    intro b hb o ho
    rw [enter_exits] at ho
    obtain ⟨⟨e, he, hout⟩, hsuccs⟩ := h.exits b hb o ho
    obtain ⟨e', he', hdown⟩ := hdescends b.label e he
    have htransfer := (noMore_congruent m).transfer b.code hdown
    exact ⟨⟨e', he', Lower.trans htransfer hout⟩, fun k hk =>
      (hsuccs k hk).imp_left fun hcov => hcov.descends hdescends⟩
  case settled =>
    intro hstop b hb hnot e he
    obtain ⟨hqueue, hne⟩ := not_or.mp fun hor => hnot (mem_enter_queue.mpr hor)
    rw [enter_stop] at hstop
    rw [enter_entry_of_ne s new hne] at he
    rw [enter_exits]
    exact h.settled hstop b hb hqueue e he

/-- Following a pending edge. -/
theorem Consistent.flow {pending : List (Int × Int)} {s : Solver} {p succ : Int}
    {out : AbstractStack} (h : Consistent m g roots ((p, succ) :: pending) s)
    (hout : s.exits.lookup p = some out) (hsucc : succ ∈ g.labels) :
    Consistent m g roots pending (s.flow roots out succ)
      ∧ (s.flow roots out succ).exits = s.exits := by
  rcases flow_cases roots out s succ with ⟨hstays, hcovers⟩ | ⟨hroot, new, henters, harrives⟩
  · rw [hstays]
    exact ⟨h.settle hout hcovers, rfl⟩
  · rw [henters]
    have hentered := h.enter hsucc hroot fun t ht => harrives.lower ht
    refine ⟨hentered.settle ?_ (Or.inr ⟨new, enter_entry_self s succ new, harrives.under⟩),
      enter_exits s succ new⟩
    rw [enter_exits]
    exact hout

/-- Following the pending edges of a block, one after the other. -/
theorem Consistent.flows {p : Int} {out : AbstractStack} {succs : List Int} {s : Solver}
    (h : Consistent m g roots (succs.map (p, ·)) s) (hout : s.exits.lookup p = some out)
    (hsuccs : succs ⊆ g.labels) :
    Consistent m g roots [] (succs.foldl (Solver.flow roots out) s) := by
  induction succs generalizing s with
  | nil => exact h
  | cons succ succs ih =>
    obtain ⟨hnext, hexits⟩ := Consistent.flow h hout (hsuccs List.mem_cons_self)
    exact ih hnext (hexits ▸ hout) fun l hl => hsuccs (List.mem_cons_of_mem _ hl)

/-- A block at the front of the queue can be taken off when the stack after it is that of the
    last visit. -/
theorem Consistent.popped {s : Solver} (h : Consistent m g roots [] s) (hnodup : g.labels.Nodup)
    {b : Block} (hb : b ∈ g.blocks) {rest : List Int} (hqueue : s.queue = b.label :: rest)
    {old : AbstractStack} (hold : s.exits.lookup b.label = some old)
    (hsame : old.same (transfer m b.code (s.stackOf b.label)) = true) :
    Consistent m g roots [] (s.popped b rest) where
  queue_nodup := (List.nodup_cons.mp (hqueue ▸ h.queue_nodup)).2
  queued l hl := h.queued l (hqueue ▸ List.mem_cons_of_mem _ hl)
  fixed := h.fixed
  exits := h.exits
  settled hstop c hc hnot e he := by
    by_cases hcb : c.label = b.label
    · cases Graph.eq_of_label hnodup hc hb hcb
      have hstack : s.stackOf b.label = e := by
        rw [stackOf]
        exact congrArg (·.getD unknown) he
      rw [hstack] at hsame
      obtain ⟨⟨e', he', hlower⟩, -⟩ := h.exits b hb old hold
      cases he'.symm.trans he
      exact ⟨old, hold, hlower.of_same (Or.inr hsame)⟩
    · refine h.settled hstop c hc (fun hin => ?_) e he
      rw [hqueue] at hin
      exact (List.mem_cons.mp hin).elim hcb hnot

/-- A block at the front of the queue can be taken off when its edges become pending. -/
theorem Consistent.advanced {s : Solver} (h : Consistent m g roots [] s) (hnodup : g.labels.Nodup)
    {b : Block} (hb : b ∈ g.blocks) {rest succs : List Int} (hqueue : s.queue = b.label :: rest)
    (hsuccs : ∀ l ∈ b.succs, l ∈ succs) :
    Consistent m g roots (succs.map (b.label, ·)) (s.advanced m b rest) := by
  obtain ⟨e, he⟩ := Option.isSome_iff_exists.mp (h.queued b.label (hqueue ▸ List.mem_cons_self)).2
  have hstack : s.stackOf b.label = e := by rw [stackOf, he]; rfl
  have hexit (l : Int) (hl : l ≠ b.label) :
      (s.advanced m b rest).exits.lookup l = s.exits.lookup l :=
    Entries.lookup_update_of_ne _ _ hl
  have hself : (s.advanced m b rest).exits.lookup b.label = some (transfer m b.code e) := by
    rw [← hstack]
    exact Entries.lookup_update_self _ _ _
  constructor
  case queue_nodup => exact (List.nodup_cons.mp (hqueue ▸ h.queue_nodup)).2
  case queued => exact fun l hl => h.queued l (hqueue ▸ List.mem_cons_of_mem _ hl)
  case fixed => exact h.fixed
  case exits =>
    intro c hc out hout
    by_cases hcb : c.label = b.label
    · cases Graph.eq_of_label hnodup hc hb hcb
      cases hself.symm.trans hout
      exact ⟨⟨e, he, Lower.refl _⟩, fun l hl => Or.inr (List.mem_map_of_mem (hsuccs l hl))⟩
    · rw [hexit _ hcb] at hout
      obtain ⟨hentry, hcovered⟩ := h.exits c hc out hout
      exact ⟨hentry, fun l hl => (hcovered l hl).imp_right fun hnone => absurd hnone (by simp)⟩
  case settled =>
    intro hstop c hc hnot ec hec
    by_cases hcb : c.label = b.label
    · cases Graph.eq_of_label hnodup hc hb hcb
      cases he.symm.trans hec
      exact ⟨_, hself, Lower.refl _⟩
    · rw [hexit _ hcb]
      refine h.settled hstop c hc (fun hin => ?_) ec hec
      rw [hqueue] at hin
      exact (List.mem_cons.mp hin).elim hcb hnot

/-- Whatever ends the solver, the stacks that it has found by then are consistent. -/
theorem Consistent.stopped {pending : List (Int × Int)} {s : Solver}
    (h : Consistent m g roots pending s) (history : List Arrival) (f : Misuse) :
    Consistent m g roots pending (({ s with history } : Solver).stopped f) where
  queue_nodup := List.nodup_nil
  queued _ hl := absurd hl List.not_mem_nil
  fixed := h.fixed
  exits := h.exits
  settled := nofun

/-- A visit keeps the stacks consistent. -/
theorem Consistent.visit {schedule : Schedule} {s : Solver} (h : Consistent m g roots [] s)
    (hwired : g.Wired) : Consistent m g roots [] (s.visit m g schedule roots) := by
  have hdoes := visit_does m schedule roots hwired.labels_nodup s
  generalize s.visit m g schedule roots = s' at hdoes ⊢
  cases hdoes with
  | idle => exact h
  | gone => exact h.stopped s.history .noSuchKey
  | @fault b _ f => exact h.stopped ((b, s.stackOf b.label) :: s.history) f
  | same hb hqueue _ hold hsame => exact h.popped hwired.labels_nodup hb hqueue hold hsame
  | @flows b _ hb hqueue =>
    have hfull := schedule.full s.history.length b.succs
    have hadvanced := h.advanced hwired.labels_nodup hb hqueue fun l hl => (hfull l).mpr hl
    refine hadvanced.flows (Entries.lookup_update_self _ _ _) fun l hl => ?_
    exact hwired.succs b hb ((hfull l).mp hl)

/-! ## The number of visits -/

/-- What bounds the number of visits: a block that has been visited to the limit waits only
    to be entered knowing nothing, and after that does not wait any more. -/
structure Bounded (g : Graph) (s : Solver) : Prop where
  visited : ∀ a ∈ s.history, a.1.label ∈ g.labels ∧ (s.entries.lookup a.1.label).isSome
  most : ∀ l, s.visits l ≤ visitLimit + 1
  tired : ∀ l, visitLimit ≤ s.visits l → l ∈ s.queue ∨ visitLimit < s.visits l →
    s.entries.lookup l = some .unknown
  spent : ∀ l, visitLimit < s.visits l → l ∉ s.queue

/-- Following an edge keeps the number of visits bounded. -/
theorem Bounded.flow {s : Solver} (h : Bounded g s) (roots : List (Int × AbstractStack))
    (out : AbstractStack) (succ : Int) : Bounded g (s.flow roots out succ) := by
  rcases flow_cases roots out s succ with ⟨hstays, -⟩ | ⟨-, new, henters, harrives⟩
  · rw [hstays]
    exact h
  · rw [henters]
    constructor
    case visited =>
      intro a ha
      rw [enter_history] at ha
      obtain ⟨hlabel, hsome⟩ := h.visited a ha
      refine ⟨hlabel, ?_⟩
      by_cases hl : a.1.label = succ
      · rw [hl, enter_entry_self]
        rfl
      · rw [enter_entry_of_ne s new hl]
        exact hsome
    case most =>
      intro l
      rw [enter_visits]
      exact h.most l
    case tired =>
      intro l hmany hwaits
      rw [enter_visits] at hmany hwaits
      by_cases hl : l = succ
      · subst hl
        rw [enter_entry_self, (harrives.tired hmany).1]
      · rw [enter_entry_of_ne s new hl]
        refine h.tired l hmany (hwaits.imp_left fun hin => ?_)
        exact (mem_enter_queue.mp hin).resolve_right hl
    case spent =>
      intro l hmany hin
      rw [enter_visits] at hmany
      rcases mem_enter_queue.mp hin with hin | rfl
      · exact h.spent l hmany hin
      · -- It is entered knowing nothing already, so it would not be entered again.
        exact (harrives.tired (by omega)).2 (h.tired l (by omega) (Or.inr hmany))

theorem Bounded.flows {s : Solver} (h : Bounded g s) (roots : List (Int × AbstractStack))
    (out : AbstractStack) (succs : List Int) :
    Bounded g (succs.foldl (Solver.flow roots out) s) := by
  induction succs generalizing s with
  | nil => exact h
  | cons succ succs ih => exact ih (h.flow roots out succ)

/-- Taking a block off the queue keeps the number of visits bounded. -/
theorem Bounded.popped {s : Solver} (h : Bounded g s) {b : Block} {rest : List Int}
    (hqueue : s.queue = b.label :: rest) (hnot : b.label ∉ rest) (hlabel : b.label ∈ g.labels)
    (hsome : (s.entries.lookup b.label).isSome) : Bounded g (s.popped b rest) := by
  have hself : (s.popped b rest).visits b.label = s.visits b.label + 1 := by
    rw [visits_popped, if_pos rfl]
  have hother (l : Int) (hl : b.label ≠ l) : (s.popped b rest).visits l = s.visits l := by
    rw [visits_popped, if_neg hl]
    rfl
  have hfront : b.label ∈ s.queue := hqueue ▸ List.mem_cons_self
  have hfew : s.visits b.label ≤ visitLimit :=
    Nat.le_of_not_lt fun hmany => h.spent b.label hmany hfront
  have hsub : ∀ l ∈ rest, l ∈ s.queue := fun l hl => hqueue ▸ List.mem_cons_of_mem _ hl
  constructor
  case visited =>
    intro a ha
    rcases List.mem_cons.mp ha with rfl | ha
    · exact ⟨hlabel, hsome⟩
    · exact h.visited a ha
  case most =>
    intro l
    by_cases hl : b.label = l
    · rw [← hl, hself]
      omega
    · rw [hother l hl]
      exact h.most l
  case tired =>
    intro l hmany hwaits
    by_cases hl : b.label = l
    · rw [← hl, hself] at hwaits
      rcases hwaits with hin | hmost
      · exact absurd (hl ▸ hin) hnot
      · rw [← hl]
        exact h.tired b.label (by omega) (Or.inl hfront)
    · rw [hother l hl] at hmany hwaits
      exact h.tired l hmany (hwaits.imp_left (hsub l))
  case spent =>
    intro l hmany hin
    by_cases hl : b.label = l
    · exact hnot (hl ▸ hin)
    · rw [hother l hl] at hmany
      exact h.spent l hmany (hsub l hin)

/-- When the solver has been ended, nothing waits for one more visit. -/
theorem Bounded.stopped {s : Solver} (h : Bounded g s) (f : Misuse) : Bounded g (s.stopped f) where
  visited := h.visited
  most := h.most
  tired l hmany hwaits := h.tired l hmany (hwaits.imp_left fun hin => absurd hin List.not_mem_nil)
  spent _ _ := List.not_mem_nil

/-- Nothing here depends on the stacks after the blocks. -/
theorem Bounded.advanced {s : Solver} {b : Block} {rest : List Int}
    (h : Bounded g (s.popped b rest)) (m : Machine) : Bounded g (s.advanced m b rest) :=
  ⟨h.visited, h.most, h.tired, h.spent⟩

/-- A visit keeps the number of visits bounded, and is one more. -/
theorem Bounded.visit (schedule : Schedule) {s : Solver} (h : Bounded g s)
    (hs : Consistent m g roots [] s) (hnodup : g.labels.Nodup) (hwaits : s.queue ≠ []) :
    Bounded g (s.visit m g schedule roots)
      ∧ (s.visit m g schedule roots).history.length = s.history.length + 1 := by
  have hpopped {b : Block} {rest : List Int} (hqueue : s.queue = b.label :: rest) :
      Bounded g (s.popped b rest) := by
    obtain ⟨hlabel, hsome⟩ := hs.queued b.label (hqueue ▸ List.mem_cons_self)
    exact h.popped hqueue (List.nodup_cons.mp (hqueue ▸ hs.queue_nodup)).1 hlabel hsome
  have hdoes := visit_does m schedule roots hnodup s
  generalize s.visit m g schedule roots = s' at hdoes ⊢
  cases hdoes with
  | idle hqueue => exact absurd hqueue hwaits
  | gone hqueue hgone => exact absurd (hs.queued _ (hqueue ▸ List.mem_cons_self)).1 hgone
  | fault _ hqueue => exact ⟨(hpopped hqueue).stopped _, rfl⟩
  | same _ hqueue => exact ⟨hpopped hqueue, rfl⟩
  | flows _ hqueue =>
    refine ⟨((hpopped hqueue).advanced m).flows roots _ _, ?_⟩
    rw [flows_history]
    rfl

/-- A list in which each of some keys comes up only so often is not long. -/
theorem length_le_of_count {items : List Arrival} {labels : List Int} {limit : Nat}
    (hkeys : ∀ a ∈ items, a.1.label ∈ labels)
    (hcount : ∀ l, items.countP (fun a => a.1.label == l) ≤ limit) :
    items.length ≤ limit * labels.length := by
  induction labels generalizing items with
  | nil =>
    cases items with
    | nil => exact Nat.zero_le _
    | cons a items => exact absurd (hkeys a List.mem_cons_self) List.not_mem_nil
  | cons l labels ih =>
    have hsplit := List.length_eq_countP_add_countP (fun a : Arrival => a.1.label == l)
      (l := items)
    have hrest := @ih (items.filter fun a => !(a.1.label == l)) (fun a ha => by
      obtain ⟨hmem, hne⟩ := List.mem_filter.mp ha
      refine (List.mem_cons.mp (hkeys a hmem)).resolve_left fun heq => ?_
      rw [heq, beq_self_eq_true] at hne
      cases hne) fun l' => Nat.le_trans (List.Sublist.countP_le List.filter_sublist) (hcount l')
    rw [List.length_cons, Nat.mul_succ]
    rw [← List.countP_eq_length_filter] at hrest
    have hself := hcount l
    simp only [Bool.not_eq_true] at hsplit
    have hsame : items.countP (fun a => decide ((a.1.label == l) = false))
        = items.countP fun a => !(a.1.label == l) := by
      congr 1
      funext a
      cases a.1.label == l <;> rfl
    omega

/-- The solver makes no more visits than it is given. -/
theorem Bounded.history_le {s : Solver} (h : Bounded g s) :
    s.history.length ≤ (visitLimit + 1) * g.blocks.length := by
  have := length_le_of_count (fun a ha => (h.visited a ha).1) h.most
  rwa [Graph.labels, List.length_map] at this

/-! ## Solved -/

theorem run_spec (schedule : Schedule) (hwired : g.Wired) (fuel : Nat) {s : Solver}
    (hs : Consistent m g roots [] s) (hb : Bounded g s) :
    Consistent m g roots [] (run m g schedule roots fuel s)
      ∧ Bounded g (run m g schedule roots fuel s)
      ∧ ((run m g schedule roots fuel s).queue = []
        ∨ s.history.length + fuel ≤ (run m g schedule roots fuel s).history.length) := by
  induction fuel generalizing s with
  | zero => exact ⟨hs, hb, Or.inr (Nat.le_refl _)⟩
  | succ fuel ih =>
    unfold run
    split
    · rename_i hempty
      exact ⟨hs, hb, Or.inl (List.isEmpty_iff.mp hempty)⟩
    · rename_i hwaits
      obtain ⟨hbounded, hlength⟩ := Bounded.visit schedule hb hs hwired.labels_nodup fun h =>
        hwaits (List.isEmpty_iff.mpr h)
      obtain ⟨hc, hb', hend⟩ := ih (Consistent.visit hs hwired) hbounded
      exact ⟨hc, hb', hend.imp_right fun hle => by omega⟩

theorem start_consistent (m : Machine) (hnodup : g.labels.Nodup) :
    Consistent m g g.rootStacks [] (start g) where
  queue_nodup := hnodup.filter _
  queued l hl := List.mem_filter.mp hl
  fixed _ _ h := h
  exits _ _ _ h := nomatch h
  settled _ b hb hnot e he := by
    refine absurd (List.mem_filter.mpr ⟨Graph.mem_labels_of_mem hb, ?_⟩) hnot
    change g.rootStacks.lookup b.label = some e at he
    rw [he]
    rfl

theorem start_bounded (g : Graph) : Bounded g (start g) where
  visited _ h := nomatch h
  most _ := Nat.zero_le _
  tired _ h := absurd h (Nat.not_le_of_lt (Nat.zero_lt_succ _))
  spent _ h := absurd h (Nat.not_lt_zero _)

/-- The solver comes to an end, with stacks that are consistent and visits that are
    bounded. -/
theorem solve_spec (hwired : g.Wired) (schedule : Schedule) :
    Consistent m g g.rootStacks [] (solve m g schedule) ∧ Bounded g (solve m g schedule)
      ∧ (solve m g schedule).queue = [] := by
  obtain ⟨hc, hb, hend⟩ := run_spec schedule hwired
    ((visitLimit + 1) * g.blocks.length + 1) (start_consistent m hwired.labels_nodup)
    (start_bounded g)
  refine ⟨hc, hb, hend.resolve_right fun hle => ?_⟩
  have := hb.history_le
  omega

/-- In the end what is kept behind a block is known in front of its successors too, or it is
    the stack of a root. This holds also of a solver that has been ended. -/
theorem exit_covers (hwired : g.Wired) {schedule : Schedule} {b : Block} (hb : b ∈ g.blocks)
    {out : AbstractStack} (hout : (solve m g schedule).exits.lookup b.label = some out) {l : Int}
    (hl : l ∈ b.succs) : Covers g.rootStacks (solve m g schedule) out l := by
  obtain ⟨hc, -, -⟩ := solve_spec (m := m) hwired schedule
  exact ((hc.exits b hb out hout).2 l hl).resolve_right List.not_mem_nil

/-- Where control comes in, the solver ends with the stack that it began with. -/
theorem fixed (hwired : g.Wired) {schedule : Schedule} {l : Int} {r : AbstractStack}
    (hr : g.rootStacks.lookup l = some r) : (solve m g schedule).entries.lookup l = some r :=
  (solve_spec (m := m) hwired schedule).1.fixed l r hr

/-- If nothing has ended the solver, the stack after a block knows what is known in front of its
    successors. -/
theorem covers (hwired : g.Wired) {schedule : Schedule} (hstop : (solve m g schedule).stop = none)
    {b : Block} (hb : b ∈ g.blocks) {e : AbstractStack}
    (he : (solve m g schedule).entries.lookup b.label = some e) {l : Int} (hl : l ∈ b.succs) :
    Covers g.rootStacks (solve m g schedule) (transfer m b.code e) l := by
  obtain ⟨hc, -, hempty⟩ := solve_spec (m := m) hwired schedule
  have hidle : b.label ∉ (solve m g schedule).queue := by
    rw [hempty]
    exact List.not_mem_nil
  obtain ⟨out, hout, hlower⟩ := hc.settled hstop b hb hidle e he
  exact (exit_covers hwired hb hout hl).imp_right fun ⟨t, ht, hunder⟩ =>
    ⟨t, ht, hunder.trans hlower.under⟩

/-- The entry stacks that the solver finds are a solution. -/
theorem solution (hwired : g.Wired) {schedule : Schedule}
    (hstop : (solve m g schedule).stop = none) :
    Solution m g fun l => (solve m g schedule).entries.lookup l where
  root _ _ _ hr := fixed hwired hr
  flow b hb s hs l hl hinner := by
    rcases covers hwired hstop hb hs hl with hroot | hcovers
    · rw [hinner] at hroot
      cases hroot
    · exact hcovers

/-- The entry stacks that the solver finds fit together. -/
theorem closed (hformed : g.Formed) (hlinked : g.Linked) {schedule : Schedule}
    (hstop : (solve m g schedule).stop = none) :
    Closed m g fun l => (solve m g schedule).entries.lookup l :=
  (solution (hformed.wired hlinked) hstop).closed hformed

end Solver

end Untangle
