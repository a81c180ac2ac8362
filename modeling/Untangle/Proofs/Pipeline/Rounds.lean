/-
  Untangle.Proofs.Pipeline.Rounds

  The loop around the resolver, which prunes and resolves again for as long as the last run has
  resolved something (`Method.normalize_counts_dispatches`). Here the loop stands without a bound.
  It comes to an end because a run that counts dispatches leaves as many fewer of them, and the
  bound that the work is given is never met. Each dispatch of a method is resolved and counted, or
  is pruned with its block, or is still there in the end.
-/
import Untangle.Proofs.Pipeline.Convergence
import Untangle.Proofs.Stage.Dispatches

namespace Untangle

open Dispatch

namespace Pipeline

/-! ## The loop as it stands -/

/-- A run of the resolver that has come to its end. -/
structure Round where
  before : Graph
  count : Nat
  after : Graph

/-- How many dispatches are pruned after a run. Pruning follows a run that has resolved
    something. -/
def Round.lost (round : Round) : Nat := if round.count = 0 then 0 else round.after.lostDispatches

/-- How a stage or a loop ends: with the changes that are counted, or at a fault. -/
abbrev End := EStateM.Result Fault Workbench (List (String × Nat))

/-- The loop after a run with a count: as long as that is not zero, blocks out of reach are pruned
    and the resolver runs again. -/
inductive Loop (s : Stage) : Nat → List (String × Nat) → Workbench → List Round → End → Prop
  | done {changes w} : Loop s 0 changes w [] (.ok changes w)
  | unpruned {n changes w f w'} (hpos : 0 < n) (hprune : Work.prune.run w = .error f w') :
      Loop s n changes w [] (.error f w')
  | fault {n changes w dead w₁ f w'} (hpos : 0 < n) (hprune : Work.prune.run w = .ok dead w₁)
      (hrun : s.run.run { w₁ with facts := none } = .error f w') :
      Loop s n changes w [] (.error f w')
  | again {n changes w dead w₁ count w₂ rounds last} (hpos : 0 < n)
      (hprune : Work.prune.run w = .ok dead w₁)
      (hrun : s.run.run { w₁ with facts := none } = .ok count w₂)
      (hrest : Loop s count
        (addChanges (addChanges changes unreachableKey dead.length) s.kind.key count)
        w₂ rounds last) :
      Loop s n changes w (⟨w₁.graph, count, w₂.graph⟩ :: rounds) last

/-- What follows the first run, if it has changed anything. -/
def noteFirst (s : Stage) (count : Nat) : Work Unit := do
  if count == 0 then return
  Work.log "CFEX.engine" Level.debug
    (s.kind.title ++ " made " ++ toString count ++ " change(s)")
  Work.invalidate

/-- The stage of the resolver: a first run, and the loop. -/
inductive Resolves (s : Stage) (changes : List (String × Nat)) (w : Workbench) :
    List Round → End → Prop
  | fault {f w'} (hrun : s.run.run w = .error f w') : Resolves s changes w [] (.error f w')
  | loops {n w₁ w₂ rounds last} (hrun : s.run.run w = .ok n w₁)
      (hnote : (noteFirst s n).run w₁ = .ok () w₂)
      (hloop : Loop s n (addChanges changes s.kind.key n) w₂ rounds last) :
      Resolves s changes w (⟨w.graph, n, w₁.graph⟩ :: rounds) last

/-- How often the resolver has been run, counting a run that ends at a fault. -/
def runs (rounds : List Round) : End → Nat
  | .ok _ _ => rounds.length
  | .error _ _ => rounds.length + 1

@[simp] theorem runs_cons (round : Round) (rounds : List Round) (last : End) :
    runs (round :: rounds) last = runs rounds last + 1 := by
  cases last <;> rfl

/-! ## The bounded loop is the loop -/

variable {s : Stage} {changes : List (String × Nat)} {w : Workbench} {rounds : List Round}
  {last : End} {n : Nat}

/-- A bound that lets each round begin is not met. -/
theorem Loop.resolveAgain_eq (h : Loop s n changes w rounds last) (hpos : 0 < n) {bound : Nat}
    (hbound : runs rounds last ≤ bound) : (resolveAgain s bound changes).run w = last := by
  induction h generalizing bound with
  | done => exact absurd hpos (Nat.lt_irrefl 0)
  | unpruned _ hprune =>
    obtain ⟨bound, rfl⟩ := Nat.exists_eq_succ_of_ne_zero (Nat.pos_iff_ne_zero.mp hbound)
    exact Work.bind_of_error hprune
  | fault _ hprune hrun =>
    obtain ⟨bound, rfl⟩ := Nat.exists_eq_succ_of_ne_zero (Nat.pos_iff_ne_zero.mp hbound)
    refine (Work.bind_of_ok hprune).trans ?_
    rw [Work.invalidate_bind]
    exact Work.bind_of_error hrun
  | @again n changes w dead w₁ count w₂ rounds last _ hprune hrun hrest ih =>
    rw [runs_cons] at hbound
    -- This round takes one off the bound, and the rest needs no more than is left.
    obtain ⟨bound, rfl⟩ := Nat.exists_eq_add_of_le' ((Nat.le_add_left 1 _).trans hbound)
    refine (Work.bind_of_ok hprune).trans ?_
    rw [Work.invalidate_bind, Work.bind_of_ok hrun]
    cases count with
    | zero =>
      cases hrest with
      | done => rfl
      | _ hpos => exact absurd hpos (Nat.lt_irrefl 0)
    | succ count => exact ih (Nat.succ_pos count) (by omega)

/-! ## What a round does -/

variable {P : Platform} {g₀ : Graph}

/-- On a sound graph blocks out of reach are pruned, and the resolver can run on what is left. -/
theorem prune_ready (hP : P.terminators = g₀.terminators) (hsound : g₀.Sound P w.graph)
    (hmachine : P.machine = w.analysis.machine) :
    ∃ dead w₁, Work.prune.run w = .ok dead w₁ ∧ w₁.graph = w.graph.pruned
      ∧ ({ w₁ with facts := none } : Workbench).Ready P g₀ := by
  obtain ⟨w₁, hprune, halike⟩ := Work.prune_run hsound.formed hsound.linked
  have hgraph : w₁.graph = w.graph.pruned := halike.graph
  refine ⟨_, w₁, hprune, hgraph, ?_, Workbench.informed_of_none rfl, ?_⟩
  · show g₀.Sound P w₁.graph
    rw [hgraph]
    exact (hsound.pruned hP).1
  · show P.machine = w₁.analysis.machine
    rw [halike.analysis]
    exact hmachine

/-- A run of the resolver takes away as many dispatches as it counts, and leaves a sound graph. -/
theorem resolver_ran {w w' : Workbench} (hs : s.kind = .switchResolver)
    (hP : P.terminators = g₀.terminators) (hw : w.Ready P g₀) (hrun : s.run.run w = .ok n w') :
    dispatchCount w'.graph + n = dispatchCount w.graph ∧ g₀.Sound P w'.graph
      ∧ P.machine = w'.analysis.machine := by
  obtain ⟨hran, hcount, -⟩ := s.run_ran (by rw [hs]; decide) hw hP hrun
  refine ⟨hcount hs, hran.sound, ?_⟩
  rw [hran.analysis]
  exact hw.machine

/-- The loop comes to an end: each round but the last leaves fewer dispatches. -/
theorem exists_loop (hs : s.kind = .switchResolver) (hP : P.terminators = g₀.terminators)
    (n : Nat) (changes : List (String × Nat)) {w : Workbench} (hsound : g₀.Sound P w.graph)
    (hmachine : P.machine = w.analysis.machine) :
    ∃ rounds last, Loop s n changes w rounds last := by
  -- Pruning makes no dispatch, and a run that is followed by another one takes some away.
  induction hcount : dispatchCount w.graph using Nat.strongRecOn generalizing n changes w with
  | _ dispatches ih =>
    subst hcount
    rcases Nat.eq_zero_or_pos n with rfl | hpos
    · exact ⟨[], _, .done⟩
    obtain ⟨dead, w₁, hprune, hgraph, hready⟩ := prune_ready hP hsound hmachine
    cases hrun : s.run.run { w₁ with facts := none } with
    | error f w₂ => exact ⟨[], _, .fault hpos hprune hrun⟩
    | ok count w₂ =>
      obtain ⟨hfewer, hsound₂, hmachine₂⟩ := resolver_ran hs hP hready hrun
      rcases Nat.eq_zero_or_pos count with rfl | hcount
      · exact ⟨_, _, .again hpos hprune hrun .done⟩
      have hpruned := Graph.dispatchCount_pruned w.graph
      rw [← hgraph] at hpruned
      dsimp only at hfewer
      obtain ⟨rounds, last, hrest⟩ := ih (dispatchCount w₂.graph) (by omega) count
        (addChanges (addChanges changes unreachableKey dead.length) s.kind.key count)
        hsound₂ hmachine₂ rfl
      exact ⟨_, _, .again hpos hprune hrun hrest⟩

/-- How many dispatches are resolved in some rounds. -/
def resolvedIn (rounds : List Round) : Nat := Number.totalSize (rounds.map (·.count))

/-- How many dispatches are pruned after some rounds. -/
def lostIn (rounds : List Round) : Nat := Number.totalSize (rounds.map Round.lost)

/-- An account of the dispatches of a graph over a loop or a stage. -/
structure Tally (g : Graph) (rounds : List Round) (last : End) : Prop where
  /-- Each run takes away as many as it counts. -/
  fewer : ∀ round ∈ rounds,
    dispatchCount round.after + round.count = dispatchCount round.before
  /-- In the end each is resolved, or pruned, or there. -/
  total : ∀ changes w, last = .ok changes w →
    dispatchCount g = dispatchCount w.graph + resolvedIn rounds + lostIn rounds

/-- At a fault there is nothing to account for. -/
theorem Tally.fault {g : Graph} {f : Fault} {w : Workbench} : Tally g [] (.error f w) where
  fewer := List.forall_mem_nil _
  total _ _ heq := by cases heq

/-- A round before an account. The next round starts on what pruning has left, if there is one. -/
theorem Tally.cons (round : Round) {g : Graph} (h : Tally g rounds last)
    (hg : g = if round.count = 0 then round.after else round.after.pruned)
    (hround : dispatchCount round.after + round.count = dispatchCount round.before) :
    Tally round.before (round :: rounds) last := by
  refine ⟨List.forall_mem_cons.mpr ⟨hround, h.fewer⟩, fun changes w heq => ?_⟩
  have htotal := h.total changes w heq
  have hlost : dispatchCount g + round.lost = dispatchCount round.after := by
    rw [hg]
    unfold Round.lost
    split
    · rfl
    · exact Graph.dispatchCount_pruned round.after
  simp only [resolvedIn, lostIn, List.map_cons, Number.totalSize_cons] at htotal ⊢
  omega

/-- What the loop does with the dispatches that pruning leaves to it. -/
theorem Loop.tally (h : Loop s n changes w rounds last) (hs : s.kind = .switchResolver)
    (hP : P.terminators = g₀.terminators) (hsound : g₀.Sound P w.graph)
    (hmachine : P.machine = w.analysis.machine) :
    Tally (if n = 0 then w.graph else w.graph.pruned) rounds last
      ∧ runs rounds last ≤ if n = 0 then 0 else dispatchCount w.graph + 1 := by
  induction h with
  | done => exact ⟨⟨List.forall_mem_nil _, fun _ _ heq => by cases heq; rfl⟩, Nat.le_refl 0⟩
  | unpruned hpos hprune =>
    obtain ⟨_, _, hok, -⟩ := prune_ready hP hsound hmachine
    rw [hprune] at hok
    cases hok
  | fault hpos hprune hrun =>
    rw [if_neg hpos.ne', if_neg hpos.ne']
    exact ⟨.fault, Nat.le_add_left 1 _⟩
  | @again n changes w dead w₁ count w₂ rounds last hpos hprune hrun hrest ih =>
    obtain ⟨_, _, hok, hgraph, hready⟩ := prune_ready hP hsound hmachine
    rw [hprune] at hok
    cases hok
    obtain ⟨hfewer, hsound₂, hmachine₂⟩ := resolver_ran hs hP hready hrun
    obtain ⟨htally, hruns⟩ := ih hsound₂ hmachine₂
    rw [if_neg hpos.ne', if_neg hpos.ne', runs_cons, ← hgraph]
    refine ⟨Tally.cons ⟨_, _, _⟩ htally rfl hfewer, ?_⟩
    have hpruned := Graph.dispatchCount_pruned w.graph
    rw [← hgraph] at hpruned
    dsimp only at hfewer
    split at hruns <;> omega

/-- The loop counts what its rounds count. -/
theorem Loop.lookup (h : Loop s n changes w rounds last) (hs : s.kind = .switchResolver)
    {changes' : List (String × Nat)} {w' : Workbench} (hlast : last = .ok changes' w') :
    (changes'.lookup s.kind.key).getD 0
      = (changes.lookup s.kind.key).getD 0 + resolvedIn rounds := by
  have hkey : s.kind.key ≠ unreachableKey := by rw [hs]; decide
  induction h with
  | done =>
    cases hlast
    rfl
  | unpruned => cases hlast
  | fault => cases hlast
  | again _ _ _ _ ih =>
    rw [ih hlast, lookup_addChanges, lookup_addChanges, if_pos rfl, if_neg hkey, resolvedIn,
      resolvedIn, List.map_cons, Number.totalSize_cons, Nat.add_zero, Nat.add_assoc]

/-! ## The stage as a whole -/

/-- The note after the first run changes nothing that the loop sees. -/
theorem noteFirst_run (s : Stage) (n : Nat) (w : Workbench) :
    ∃ w', (noteFirst s n).run w = .ok () w' ∧ w'.graph = w.graph ∧ w'.analysis = w.analysis := by
  unfold noteFirst
  split
  · exact ⟨w, rfl, rfl, rfl⟩
  · obtain ⟨w₁, hlog, halike⟩ := Work.says_log "CFEX.engine" Level.debug
      (s.kind.title ++ " made " ++ toString n ++ " change(s)") w
    exact ⟨{ w₁ with facts := none }, Work.bind_of_ok hlog, halike.graph, halike.analysis⟩

/-- The stage comes to an end. -/
theorem exists_resolves (hs : s.kind = .switchResolver) (hP : P.terminators = g₀.terminators)
    (changes : List (String × Nat)) (hw : w.Ready P g₀) :
    ∃ rounds last, Resolves s changes w rounds last := by
  cases hrun : s.run.run w with
  | error f w₁ => exact ⟨[], _, .fault hrun⟩
  | ok n w₁ =>
    obtain ⟨-, hsound, hmachine⟩ := resolver_ran hs hP hw hrun
    obtain ⟨w₂, hnote, hgraph, hanalysis⟩ := noteFirst_run s n w₁
    obtain ⟨rounds, last, hloop⟩ := exists_loop hs hP n (addChanges changes s.kind.key n)
      (w := w₂) (hgraph ▸ hsound) (hanalysis ▸ hmachine)
    exact ⟨_, _, .loops hrun hnote hloop⟩

/-- What the stage does with the dispatches of a graph. -/
theorem Resolves.tally (h : Resolves s changes w rounds last) (hs : s.kind = .switchResolver)
    (hP : P.terminators = g₀.terminators) (hw : w.Ready P g₀) :
    Tally w.graph rounds last ∧ runs rounds last ≤ dispatchCount w.graph + 1 := by
  cases h with
  | fault hrun => exact ⟨.fault, Nat.le_add_left 1 _⟩
  | @loops n w₁ w₂ rounds last hrun hnote hloop =>
    obtain ⟨hfewer, hsound, hmachine⟩ := resolver_ran hs hP hw hrun
    obtain ⟨w₂', hnote', hgraph, hanalysis⟩ := noteFirst_run s n w₁
    rw [hnote] at hnote'
    cases hnote'
    obtain ⟨htally, hruns⟩ := hloop.tally hs hP (hgraph ▸ hsound) (hanalysis ▸ hmachine)
    rw [hgraph] at htally hruns
    refine ⟨Tally.cons ⟨_, _, _⟩ htally rfl hfewer, ?_⟩
    rw [runs_cons]
    split at hruns <;> omega

/-- The stage with its bounded loop does what the stage does. -/
theorem Resolves.runStage_eq (h : Resolves s changes w rounds last) (hs : s.kind = .switchResolver)
    (hP : P.terminators = g₀.terminators) (hw : w.Ready P g₀) :
    (runStage changes s).run w = last := by
  cases h with
  | fault hrun => exact Work.bind_of_error hrun
  | @loops n w₁ w₂ rounds last hrun hnote hloop =>
    obtain ⟨-, hsound, hmachine⟩ := resolver_ran hs hP hw hrun
    obtain ⟨w₂', hnote', hgraph, hanalysis⟩ := noteFirst_run s n w₁
    rw [hnote] at hnote'
    cases hnote'
    -- The bound is one more than the dispatches after the first run, and so not met.
    have hruns := (hloop.tally hs hP (hgraph ▸ hsound) (hanalysis ▸ hmachine)).2
    refine (Work.bind_of_ok hrun).trans ?_
    cases n with
    | zero =>
      cases hnote
      cases hloop with
      | done => rfl
      | _ hpos => exact absurd hpos (Nat.lt_irrefl 0)
    | succ n =>
      obtain ⟨w₃, hlog, -⟩ := Work.says_log "CFEX.engine" Level.debug
        (s.kind.title ++ " made " ++ toString (n + 1) ++ " change(s)") w₁
      have hnoted : (noteFirst s (n + 1)).run w₁ = .ok () { w₃ with facts := none } :=
        Work.bind_of_ok hlog
      rw [hnote] at hnoted
      cases hnoted
      refine (Work.bind_of_ok hlog).trans ?_
      rw [Work.invalidate_bind, if_pos (beq_iff_eq.mpr hs), Work.get_bind]
      exact hloop.resolveAgain_eq (Nat.succ_pos n) hruns

/-- The stage counts what its rounds count. -/
theorem Resolves.lookup (h : Resolves s changes w rounds last) (hs : s.kind = .switchResolver)
    {changes' : List (String × Nat)} {w' : Workbench} (hlast : last = .ok changes' w') :
    (changes'.lookup s.kind.key).getD 0
      = (changes.lookup s.kind.key).getD 0 + resolvedIn rounds := by
  cases h with
  | fault => cases hlast
  | loops hrun hnote hloop =>
    rw [hloop.lookup hs hlast, lookup_addChanges, if_pos rfl, resolvedIn, resolvedIn,
      List.map_cons, Number.totalSize_cons, Nat.add_assoc]

/-! ## The other stages -/

variable {m : Method} {settings : Settings} {g : Graph}

/-- The other stages but the last one keep all dispatches, and count elsewhere. -/
theorem runStages_dispatches {stages : List Stage}
    (hkinds : ∀ s ∈ stages, s.kind ≠ .switchResolver ∧ s.kind ≠ .exceptionReconciler)
    (hP : P.terminators = g₀.terminators) (hw : Steady P g₀ w)
    {changes' : List (String × Nat)} {w' : Workbench}
    (hrun : (stages.foldlM runStage changes).run w = .ok changes' w') :
    dispatchCount w'.graph = dispatchCount w.graph
      ∧ (changes'.lookup StageKind.switchResolver.key).getD 0
        = (changes.lookup StageKind.switchResolver.key).getD 0 := by
  induction stages generalizing w changes with
  | nil =>
    obtain ⟨rfl, rfl⟩ := Work.pure_eq_ok.mp hrun
    exact ⟨rfl, rfl⟩
  | cons s stages ih =>
    rw [List.foldlM_cons] at hrun
    obtain ⟨between, w₁, hfirst, hrest⟩ := Work.bind_eq_ok.mp hrun
    obtain ⟨hother, hkind⟩ := hkinds s List.mem_cons_self
    have hsteady := (runStage_steady hkind hP hw hfirst).1
    obtain ⟨hcount, hlookup⟩ := ih (fun t ht => hkinds t (List.mem_cons_of_mem _ ht)) hsteady hrest
    rw [hcount, hlookup]
    obtain ⟨n, w₂, changes₂, hran, hchanges, hagain⟩ := runStage_eq_ok hfirst
    have hkey : StageKind.switchResolver.key ≠ s.kind.key := by
      cases hs : s.kind with
      | switchResolver => exact absurd hs hother
      | _ => decide
    have hkept := Stage.dispatchCount_run hkind hother hw.toReady hran
    have hsame : (changes₂.lookup StageKind.switchResolver.key).getD 0
        = (changes.lookup StageKind.switchResolver.key).getD 0 := by
      rw [hchanges, lookup_addChanges, if_neg hkey, Nat.add_zero]
    rcases hagain with ⟨-, rfl, rfl⟩ | ⟨-, w₃, halike, ⟨hs, -⟩ | ⟨-, rfl, rfl⟩⟩
    · exact ⟨hkept, hsame⟩
    · exact absurd hs hother
    · rw [halike.graph]
      exact ⟨hkept, hsame⟩

/-- Stages without the resolver, the last one at the end. -/
def Others (stages : List Stage) : Prop :=
  ∃ early late, stages = early ++ late
    ∧ (∀ s ∈ early, s.kind ≠ .switchResolver ∧ s.kind ≠ .exceptionReconciler)
    ∧ (late = [] ∨ ∃ s : Stage, late = [s] ∧ s.kind = .exceptionReconciler)

/-- After the resolver come other stages. -/
theorem others_of_kinds {stages : List Stage} {front last : List StageKind}
    (h : stages.map (·.kind) = front ++ last)
    (hfront : ∀ k ∈ front, k ≠ .switchResolver ∧ k ≠ .exceptionReconciler)
    (hlast : last = [] ∨ last = [.exceptionReconciler]) : Others stages := by
  obtain ⟨early, late, rfl, rfl, hlate⟩ := List.map_eq_append_iff.mp h
  refine ⟨early, late, rfl, fun s hs => hfront _ (List.mem_map_of_mem hs), ?_⟩
  rcases hlast with rfl | rfl
  · exact Or.inl (List.map_eq_nil_iff.mp hlate)
  · exact Or.inr (List.map_eq_singleton_iff.mp hlate)

theorem Prepared.others {stages : List Stage} (h : Prepared settings stages)
    (hidle : .switchResolver ∉ settings.activeKinds) : Others stages := by
  obtain ⟨front, last, hkinds, hfront, hlast⟩ := activeKinds_eq settings
  refine others_of_kinds (h.kinds.trans hkinds) (fun k hk => ⟨?_, ?_⟩) hlast
  · rintro rfl
    exact hidle (hkinds ▸ List.mem_append_left _ hk)
  · rintro rfl
    exact absurd (hfront.subset hk) (by decide)

theorem Prepared.others_tail {later : List Stage} (h : Prepared settings (s :: later))
    (hs : s.kind = .switchResolver) : Others later := by
  obtain ⟨front, last, hkinds, hfront, hlast⟩ := activeKinds_eq settings
  have hall := h.kinds.trans hkinds
  rw [List.map_cons, hs] at hall
  cases front with
  | nil =>
    rcases hlast with rfl | rfl
    · cases hall
    · cases hall
  | cons kind front =>
    rw [List.cons_append, List.cons.injEq] at hall
    obtain ⟨rfl, hrest⟩ := hall
    refine others_of_kinds hrest (fun k hk => ?_) hlast
    have hk := (List.cons_sublist_cons.mp hfront).subset hk
    rcases List.mem_pair.mp hk with rfl | rfl <;> decide

/-- When a method is written out after the other stages, it has the dispatches that they have
    started with. -/
theorem Others.finish {later : List Stage} (h : Others later) (hP : P.terminators = g₀.terminators)
    (hw : Steady P g₀ w) {o : Outcome} {w' : Workbench}
    (hrun : (later.foldlM runStage changes >>= finish m).run w = .ok o w')
    (hrewritten : o.rewritten = true) :
    o.switchesResolved = (changes.lookup StageKind.switchResolver.key).getD 0
      ∧ o.body.code.countP isDispatch = dispatchCount w.graph := by
  obtain ⟨early, late, rfl, hearly, hlate⟩ := h
  obtain ⟨changes₂, w₂, hrun, hfinish⟩ := Work.bind_eq_ok.mp hrun
  obtain ⟨hissues, -, -, ⟨-, hnot, -⟩ | ⟨-, -, hresolved, hbody, hvalid⟩⟩ := finish_eq_ok hfinish
  · rw [hrewritten] at hnot
    cases hnot
  rw [List.foldlM_append] at hrun
  obtain ⟨changes₁, w₁, hfront, hback⟩ := Work.bind_eq_ok.mp hrun
  obtain ⟨hcount, hlookup⟩ := runStages_dispatches hearly hP hw hfront
  have hformed := (runStages_steady (fun s hs => (hearly s hs).2) hP hw hfront).1.sound.formed
  rw [hresolved, ← hcount, ← hlookup]
  rcases hlate with rfl | ⟨s, rfl, hs⟩
  · obtain ⟨rfl, rfl⟩ := Work.pure_eq_ok.mp hback
    have hwritten := written (p := False) hformed (Or.inl ⟨id, rfl⟩) hbody hvalid
    exact ⟨rfl, hwritten.1.dispatches⟩
  · rw [List.foldlM_cons] at hback
    obtain ⟨_, w₃, hlast, hend⟩ := Work.bind_eq_ok.mp hback
    obtain ⟨rfl, rfl⟩ := Work.pure_eq_ok.mp hend
    obtain ⟨hgraph, -, hflagged, rfl⟩ := runStage_reconciler hs hformed hlast
    rw [hissues] at hflagged
    have hnone := (List.append_eq_nil_iff.mp (List.append_eq_nil_iff.mp hflagged.symm).1).2
    have hwritten := written (p := False) hformed (Or.inr ⟨hgraph, hnone⟩) hbody hvalid
    refine ⟨?_, hwritten.1.dispatches⟩
    rw [lookup_addChanges, hs, if_neg (by decide), Nat.add_zero]

/-! ## The work as a whole -/

/-- The runs of the resolver in the work on a graph, and how many have been started. Without the
    resolver, or with settings that do not serve, there are none. Otherwise the work goes on from
    where the loop has ended. -/
inductive Runs (settings : Settings) (m : Method) (g : Graph) : List Round → Nat → Prop
  | none (h : .switchResolver ∉ settings.activeKinds ∨ ¬ Serves settings) : Runs settings m g [] 0
  | some {analysis s later w rounds last} (hanalysis : settings.analysisOf = .ok analysis)
      (hstages : Prepared settings (s :: later)) (hs : s.kind = .switchResolver)
      (hbench : ({ graph := g.pruned, analysis } : Workbench).Alike w)
      (hwork : m.workOn settings g = match last with
        | .ok changes w' => (later.foldlM runStage changes >>= finish m).run w'
        | .error f w' => .error f w')
      (hresolves : Resolves s [(unreachableKey, g.unreachable.length)] w rounds last) :
      Runs settings m g rounds (runs rounds last)

/-- At first no dispatch is counted. -/
theorem lookup_start (n : Nat) :
    (([(unreachableKey, n)] : List (String × Nat)).lookup StageKind.switchResolver.key).getD 0
      = 0 := rfl

end Pipeline

namespace Method

open Pipeline

variable {m : Method} {settings : Settings} {g : Graph}

/-- How many dispatches a method has. -/
def dispatches (m : Method) : Nat := m.code.countP isDispatch

/-- The stages start on a graph that is ready for them. -/
theorem ready_start {analysis : Analysis} {w : Workbench} (hnodup : (m.code.map (·.uid)).Nodup)
    (hbuild : Graph.build m.copy settings.terminators = .ok g)
    (hbench : ({ graph := g.pruned, analysis } : Workbench).Alike w) :
    ∃ P : Platform, P.terminators = g.terminators ∧ Steady P g w := by
  let P : Platform := ⟨analysis.machine, default, settings.terminators⟩
  have hP : P.terminators = g.terminators := (Graph.build_terminators hbuild).symm
  exact ⟨P, hP, steady_start (build_sound P hbuild (copy_nodup hnodup)) hP hbench.graph hbench.facts
    (congrArg Analysis.machine hbench.analysis.symm)⟩

/-- The loop around the resolver comes to an end, whatever the method and the settings. -/
theorem exists_runs (hnodup : (m.code.map (·.uid)).Nodup)
    (hbuild : Graph.build m.copy settings.terminators = .ok g) :
    ∃ rounds runs, Runs settings m g rounds runs := by
  obtain ⟨hformed, hlinked⟩ := Graph.build_formed hbuild (copy_nodup hnodup)
  by_cases hactive : .switchResolver ∈ settings.activeKinds
  swap
  · exact ⟨[], 0, .none (Or.inl hactive)⟩
  rcases work_run (w := { graph := g, analysis := {}, method := m.name }) settings m hformed
    hlinked with ⟨e, w', -, -, hserves⟩ | ⟨analysis, stages, w, hanalysis, hstages, hbench, hwork⟩
  · exact ⟨[], 0, .none (Or.inr hserves)⟩
  have hkinds : settings.activeKinds = .switchResolver :: settings.activeKinds.tail := by
    unfold Settings.activeKinds StageKind.all at hactive ⊢
    rw [List.filter_cons_of_pos (p := fun k : StageKind => (settings.isActive k.key).truthy)
      (List.mem_filter.mp hactive).2]
    rfl
  have hprepared := hstages
  unfold Prepared at hstages
  rw [hkinds] at hstages
  cases hstages with
  | @cons _ s _ later hfirst _ =>
    have hbench : ({ graph := g.pruned, analysis } : Workbench).Alike w :=
      ⟨hbench.graph, hbench.analysis, hbench.facts, hbench.issues⟩
    obtain ⟨P, hP, hsteady⟩ := ready_start hnodup hbuild hbench
    obtain ⟨rounds, last, hresolves⟩ := exists_resolves hfirst.1 hP
      [(unreachableKey, g.unreachable.length)] hsteady.toReady
    refine ⟨rounds, _, .some hanalysis hprepared hfirst.1 hbench ?_ hresolves⟩
    have hstage := hresolves.runStage_eq hfirst.1 hP hsteady.toReady
    refine hwork.trans ?_
    rw [List.foldlM_cons, bind_assoc]
    cases last with
    | ok changes w' => exact Work.bind_of_ok hstage
    | error f w' => exact Work.bind_of_error hstage

/-- When a method is rewritten, the work on its graph has succeeded. -/
theorem workOn_of_rewritten (hbuild : Graph.build m.copy settings.terminators = .ok g)
    (h : (m.normalize settings).rewritten = true) :
    ∃ w, m.workOn settings g = .ok (m.normalize settings) w := by
  obtain ⟨g', w, hbuild', hwork⟩ := normalize_eq h
  rw [hbuild] at hbuild'
  cases hbuild'
  exact ⟨w, hwork⟩

/-- Without a run of the resolver a method that is rewritten keeps the dispatches that the first
    pruning has left. -/
theorem account_without_resolver
    (hidle : .switchResolver ∉ settings.activeKinds ∨ ¬ Serves settings)
    (hnodup : (m.code.map (·.uid)).Nodup)
    (hbuild : Graph.build m.copy settings.terminators = .ok g)
    (hrewritten : (m.normalize settings).rewritten = true) :
    (m.normalize settings).switchesResolved = 0
      ∧ dispatchCount g.pruned = (m.normalize settings).body.dispatches := by
  obtain ⟨hformed, hlinked⟩ := Graph.build_formed hbuild (copy_nodup hnodup)
  obtain ⟨w', hwork⟩ := workOn_of_rewritten hbuild hrewritten
  rcases work_run (w := { graph := g, analysis := {}, method := m.name }) settings m hformed
    hlinked with ⟨e, _, hstuck, -⟩ | ⟨analysis, stages, w, hanalysis, hstages, hbench, hstaged⟩
  · rw [show m.workOn settings g = _ from hstuck] at hwork
    cases hwork
  · -- The settings have served, so the resolver is not among the stages.
    have hothers := hstages.others (hidle.resolve_right fun hnot =>
      hnot (hstages.serves hanalysis))
    obtain ⟨P, hP, hsteady⟩ := ready_start hnodup hbuild
      ⟨hbench.graph, hbench.analysis, hbench.facts, hbench.issues⟩
    obtain ⟨hresolved, hleft⟩ := hothers.finish hP hsteady (hstaged.symm.trans hwork) hrewritten
    rw [hbench.graph] at hleft
    exact ⟨hresolved, hleft.symm⟩

/-- Each run of the resolver takes away as many dispatches as it counts, so that there is one run
    more than dispatches at most. When the method is rewritten, each dispatch that the first
    pruning has left has been resolved, or pruned after a run, or is still there. -/
theorem account_of_runs {rounds : List Round} {runs : Nat} (h : Runs settings m g rounds runs)
    (hnodup : (m.code.map (·.uid)).Nodup)
    (hbuild : Graph.build m.copy settings.terminators = .ok g) :
    (∀ round ∈ rounds, dispatchCount round.after + round.count = dispatchCount round.before)
      ∧ runs ≤ dispatchCount g.pruned + 1
      ∧ ((m.normalize settings).rewritten = true →
          (m.normalize settings).switchesResolved = resolvedIn rounds
            ∧ dispatchCount g.pruned = (m.normalize settings).body.dispatches
                + resolvedIn rounds + lostIn rounds) := by
  cases h with
  | none hidle =>
    exact ⟨List.forall_mem_nil _, Nat.zero_le _,
      account_without_resolver hidle hnodup hbuild⟩
  | @some analysis s later w rounds last hanalysis hstages hs hbench hstaged hresolves =>
    obtain ⟨P, hP, hsteady⟩ := ready_start hnodup hbuild hbench
    have hgraph : w.graph = g.pruned := hbench.graph
    obtain ⟨htally, hruns⟩ := hresolves.tally hs hP hsteady.toReady
    rw [hgraph] at htally hruns
    refine ⟨htally.fewer, hruns, fun hrewritten => ?_⟩
    obtain ⟨w', hwork⟩ := workOn_of_rewritten hbuild hrewritten
    rw [hwork] at hstaged
    cases last with
    | error f w'' => cases hstaged
    | ok changes w₁ =>
      -- The other stages keep what the loop has left, and count elsewhere.
      have hstage := hresolves.runStage_eq hs hP hsteady.toReady
      have hsteady₁ := (runStage_steady (by rw [hs]; decide) hP hsteady hstage).1
      obtain ⟨hresolved, hleft⟩ := (hstages.others_tail hs).finish hP hsteady₁ hstaged.symm
        hrewritten
      have hlookup := hresolves.lookup hs rfl
      rw [hs, lookup_start, Nat.zero_add] at hlookup
      refine ⟨hresolved.trans (congrArg _ hlookup), ?_⟩
      rw [dispatches, hleft]
      exact htally.total changes w₁ rfl

/-- The loop around the resolver comes to an end, and its count is honest. -/
theorem normalize_counts_dispatches (m : Method) (settings : Settings)
    (hnodup : (m.code.map (·.uid)).Nodup) :
    ((m.normalize settings).rewritten = true →
        ∃ g, Graph.build m.copy settings.terminators = .ok g)
      ∧ ∀ g, Graph.build m.copy settings.terminators = .ok g →
        (∃ rounds runs, Runs settings m g rounds runs)
        ∧ ∀ rounds runs, Runs settings m g rounds runs →
          (∀ round ∈ rounds, dispatchCount round.after + round.count = dispatchCount round.before)
          ∧ runs ≤ m.dispatches + 1
          ∧ ((m.normalize settings).rewritten = true →
              (m.normalize settings).switchesResolved = resolvedIn rounds
                ∧ m.dispatches = (m.normalize settings).switchesResolved
                  + (m.normalize settings).body.dispatches
                  + (g.lostDispatches + lostIn rounds)) := by
  refine ⟨fun h => ?_, fun g hbuild => ⟨exists_runs hnodup hbuild, fun rounds runs hruns => ?_⟩⟩
  · obtain ⟨g, -, hbuild, -⟩ := normalize_eq h
    exact ⟨g, hbuild⟩
  · obtain ⟨hfewer, hbound, haccount⟩ := account_of_runs hruns hnodup hbuild
    -- The first pruning takes its share before the resolver runs.
    have hbuilt : dispatchCount g = m.dispatches := Graph.dispatchCount_built hbuild
    have hpruned := Graph.dispatchCount_pruned g
    refine ⟨hfewer, by omega, fun hrewritten => ?_⟩
    obtain ⟨hresolved, htotal⟩ := haccount hrewritten
    refine ⟨hresolved, ?_⟩
    rw [hresolved]
    omega

/-- Three dispatches: the first is resolved, the second stays, and the third is pruned as only the
    first leads to it. -/
def threeFates : Method where
  code :=
    [{ opcode := some .pushConst, operand := .value (.int 0), uid := 0 },
     { opcode := some .switch, operand := .value (.tuple [.int 2, .int 5]), uid := 1 },
     { opcode := some .loadLocal, operand := .value (.str "x"), uid := 2 },
     { opcode := some .switch, operand := .value (.tuple [.int 4]), uid := 3 },
     { opcode := some .other, uid := 4, mnemonic := .str "ret" },
     { opcode := some .loadLocal, operand := .value (.str "x"), uid := 5 },
     { opcode := some .switch, operand := .value (.tuple [.int 4]), uid := 6 },
     { opcode := some .other, uid := 7, mnemonic := .str "ret" }]

theorem threeFates_counted :
    (threeFates.code.map (·.uid)).Nodup ∧ threeFates.dispatches = 3
      ∧ (threeFates.normalize {}).switchesResolved = 1
      ∧ (threeFates.normalize {}).body.dispatches = 1
      ∧ ∃ g, Graph.build threeFates.copy ({} : Settings).terminators = .ok g
        ∧ ∃ rounds runs, Runs {} threeFates g rounds runs ∧ runs ≤ 4
          ∧ resolvedIn rounds = 1 ∧ g.lostDispatches + lostIn rounds = 1 := by
  have hnodup : (threeFates.code.map (·.uid)).Nodup := by decide
  have hdispatches : threeFates.dispatches = 3 := by decide
  have hresolved : (threeFates.normalize {}).switchesResolved = 1 := by decide +kernel
  have hleft : (threeFates.normalize {}).body.dispatches = 1 := by decide +kernel
  have hrewritten : (threeFates.normalize {}).rewritten = true := by decide +kernel
  have hcounts := normalize_counts_dispatches threeFates {} hnodup
  obtain ⟨g, hbuild⟩ := hcounts.1 hrewritten
  obtain ⟨⟨rounds, runs, hruns⟩, hall⟩ := hcounts.2 g hbuild
  obtain ⟨-, hbound, haccount⟩ := hall rounds runs hruns
  obtain ⟨hcounted, htotal⟩ := haccount hrewritten
  rw [hdispatches] at hbound htotal
  rw [hresolved] at hcounted htotal
  rw [hleft] at htotal
  exact ⟨hnodup, hdispatches, hresolved, hleft, g, hbuild, rounds, runs, hruns, hbound, by omega,
    by omega⟩

end Method

end Untangle
