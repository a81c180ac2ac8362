/-
  Untangle.Proofs.Pipeline.Convergence

  Normalizing again and again comes to an end (`Method.normalize_converges`). Every change that a
  stage counts makes the method lighter, apart from what the last stage counts. That one changes
  nothing of a graph that has just been built, so a method is rewritten only if it gets lighter.
-/
import Untangle.Proofs.Pipeline.Behaviour
import Untangle.Proofs.Stage.Settled
import Untangle.Proofs.Stage.Weight

namespace Untangle

open Instruction

namespace Pipeline

/-- Under these keys those changes are counted that make a method lighter. -/
def progressKeys : List String :=
  [unreachableKey, StageKind.switchResolver.key, StageKind.junkEliminator.key,
   StageKind.constantFolder.key]

/-- The number of changes that make a method lighter. -/
def progress (changes : List (String × Nat)) : Nat :=
  Number.totalSize (progressKeys.map fun key => (changes.lookup key).getD 0)

theorem lookup_addChanges (changes : List (String × Nat)) (key other : String) (n : Nat) :
    ((addChanges changes key n).lookup other).getD 0
      = (changes.lookup other).getD 0 + if other = key then n else 0 := by
  unfold addChanges
  by_cases h : other = key
  · subst h
    rw [Entries.lookup_update_self, if_pos rfl]
    rfl
  · rw [Entries.lookup_update_of_ne _ _ h, if_neg h, Nat.add_zero]

/-- Changes count once, under their key. -/
theorem progress_addChanges (changes : List (String × Nat)) (key : String) (n : Nat) :
    progress (addChanges changes key n)
      = progress changes + if key ∈ progressKeys then n else 0 := by
  unfold progress
  have hnodup : progressKeys.Nodup := by decide
  generalize progressKeys = keys at hnodup
  induction keys with
  | nil => rfl
  | cons k keys ih =>
    rw [List.nodup_cons] at hnodup
    rw [List.map_cons, Number.totalSize_cons, ih hnodup.2, lookup_addChanges, List.map_cons,
      Number.totalSize_cons]
    by_cases hk : k = key
    · subst hk
      rw [if_pos rfl, if_neg hnodup.1, if_pos List.mem_cons_self]
      omega
    · rw [if_neg hk]
      have hmem : key ∈ k :: keys ↔ key ∈ keys := by
        rw [List.mem_cons, or_iff_right (Ne.symm hk)]
      rw [if_congr hmem rfl rfl]
      omega

theorem addChanges_zero {changes : List (String × Nat)} (h : ∀ e ∈ changes, e.2 = 0)
    (key : String) : ∀ e ∈ addChanges changes key 0, e.2 = 0 := by
  unfold addChanges
  induction changes with
  | nil =>
    intro e he
    rw [List.mem_singleton.mp he]
    rfl
  | cons first changes ih =>
    intro e he
    unfold Entries.update at he
    split at he
    · rcases List.mem_cons.mp he with rfl | he
      · exact h first List.mem_cons_self
      · exact h e (List.mem_cons_of_mem _ he)
    · rcases List.mem_cons.mp he with rfl | he
      · exact h _ List.mem_cons_self
      · exact ih (fun e' he' => h e' (List.mem_cons_of_mem _ he')) e he

/-! ## The stages -/

/-- The changes account for the graph: it is lighter than the first one by as much as they say,
    and it is the first one as long as there are none. -/
structure Accounts (g₀ : Graph) (changes : List (String × Nat)) (w : Workbench) : Prop where
  lighter : weightOf w.graph.code + progress changes ≤ weightOf g₀.code
  idle : (∀ e ∈ changes, e.2 = 0) ∧ w.graph = g₀ ∨ 0 < progress changes

namespace Accounts

variable {g₀ : Graph} {changes : List (String × Nat)} {w w' : Workbench}

/-- Changes are counted that have made the graph lighter. -/
theorem add (h : Accounts g₀ changes w) {key : String} (hkey : key ∈ progressKeys) {n : Nat}
    (hlighter : weightOf w'.graph.code + n ≤ weightOf w.graph.code)
    (hidle : n = 0 → w'.graph = w.graph) : Accounts g₀ (addChanges changes key n) w' := by
  have hprogress := progress_addChanges changes key n
  rw [if_pos hkey] at hprogress
  have hbefore := h.lighter
  refine ⟨by omega, ?_⟩
  rcases h.idle with ⟨hzero, hgraph⟩ | hpos
  · rcases Nat.eq_zero_or_pos n with rfl | hn
    · exact Or.inl ⟨addChanges_zero hzero key, (hidle rfl).trans hgraph⟩
    · exact Or.inr (by omega)
  · exact Or.inr (by omega)

theorem of_graph (h : Accounts g₀ changes w) (hgraph : w'.graph = w.graph) :
    Accounts g₀ changes w' :=
  ⟨hgraph ▸ h.lighter, hgraph ▸ h.idle⟩

/-- Blocks are counted that have been pruned. -/
theorem prune (h : Accounts g₀ changes w) (hfilled : w.graph.Filled)
    (hgraph : w'.graph = w.graph.pruned) :
    Accounts g₀ (addChanges changes unreachableKey w.graph.unreachable.length) w' := by
  refine h.add (by decide) (hgraph ▸ hfilled.weightOf_pruned) fun hzero => ?_
  rw [hgraph, Graph.pruned, List.eq_nil_of_length_eq_zero hzero]
  rfl

end Accounts

variable {P : Platform} {g₀ : Graph} {w w' : Workbench} {s : Stage}
  {changes changes' : List (String × Nat)}

theorem key_mem_progressKeys {kind : StageKind} (h : kind ≠ .exceptionReconciler) :
    kind.key ∈ progressKeys := by
  cases kind with
  | exceptionReconciler => exact absurd rfl h
  | _ => decide

/-- A run of a stage is accounted for. -/
theorem Accounts.run {n : Nat} (h : Accounts g₀ changes w) (hkind : s.kind ≠ .exceptionReconciler)
    (hP : P.terminators = g₀.terminators) (hw : w.Ready P g₀)
    (hrun : s.run.run w = .ok n w') : Accounts g₀ (addChanges changes s.kind.key n) w' := by
  obtain ⟨hran, -, -⟩ := s.run_ran hkind hw hP hrun
  exact h.add (key_mem_progressKeys hkind) (Stage.weightOf_run hkind hw hrun).1
    fun hzero => (hran.idle hzero).1

theorem resolveAgain_accounts (hs : s.kind = .switchResolver)
    (hP : P.terminators = g₀.terminators) {rounds : Nat} (hsound : g₀.Sound P w.graph)
    (hmachine : P.machine = w.analysis.machine) (hfilled : w.graph.Filled)
    (h : Accounts g₀ changes w) (hrun : (resolveAgain s rounds changes).run w = .ok changes' w') :
    Accounts g₀ changes' w' := by
  induction rounds generalizing w changes with
  | zero =>
    obtain ⟨rfl, rfl⟩ := Work.pure_eq_ok.mp hrun
    exact h
  | succ rounds ih =>
    obtain ⟨n, w₁, w₂, changes₂, halike, hagain, rfl, hrest⟩ :=
      resolveAgain_succ hsound.formed hsound.linked hrun
    have hgraph : w₁.graph = w.graph.pruned := halike.graph
    have hanalysis : w₁.analysis = w.analysis := halike.analysis
    have hkind : s.kind ≠ .exceptionReconciler := by rw [hs]; decide
    have hready : w₁.Ready P g₀ :=
      ⟨hgraph ▸ (hsound.pruned hP).1, Workbench.informed_of_none halike.facts,
        hanalysis ▸ hmachine⟩
    have hran := (s.run_ran hkind hready hP hagain).1
    have hfilled₂ := (Stage.weightOf_run hkind hready hagain).2 hs (hgraph ▸ hfilled.pruned)
    have haccounts := (h.prune hfilled hgraph).run hkind hP hready hagain
    rcases hrest with ⟨-, rfl, rfl⟩ | ⟨-, hrest⟩
    · exact haccounts
    · have hmachine₂ : P.machine = w₂.analysis.machine := by
        rw [hran.analysis, hanalysis]
        exact hmachine
      exact ih hran.sound hmachine₂ hfilled₂ haccounts hrest

/-- A stage is accounted for. The resolver needs all blocks filled to begin with, so that each
    block that it prunes counts. -/
theorem runStage_accounts (hkind : s.kind ≠ .exceptionReconciler)
    (hP : P.terminators = g₀.terminators) (hw : Steady P g₀ w)
    (hfilled : s.kind = .switchResolver → w.graph.Filled) (h : Accounts g₀ changes w)
    (hrun : (runStage changes s).run w = .ok changes' w') : Accounts g₀ changes' w' := by
  obtain ⟨n, w₁, changes₁, hfirst, rfl, hrest⟩ := runStage_eq_ok hrun
  have hran := (s.run_ran hkind hw.toReady hP hfirst).1
  have haccounts := h.run hkind hP hw.toReady hfirst
  rcases hrest with ⟨-, rfl, rfl⟩ | ⟨-, w₂, halike, ⟨hs, hrest⟩ | ⟨-, rfl, rfl⟩⟩
  · exact haccounts
  · have hgraph : w₂.graph = w₁.graph := halike.graph
    have hanalysis : w₂.analysis = w.analysis := halike.analysis.trans hran.analysis
    have hfilled₁ := (Stage.weightOf_run hkind hw.toReady hfirst).2 hs (hfilled hs)
    exact resolveAgain_accounts hs hP (hgraph ▸ hran.sound) (hanalysis ▸ hw.machine)
      (hgraph ▸ hfilled₁) (haccounts.of_graph hgraph) hrest
  · exact haccounts.of_graph halike.graph

/-- All stages but the last one are accounted for. Only the first can be the resolver. -/
theorem runStages_accounts {stages : List Stage}
    (hkinds : ∀ s ∈ stages, s.kind ≠ .exceptionReconciler)
    (honce : stages.Pairwise fun _ t => t.kind ≠ .switchResolver)
    (hP : P.terminators = g₀.terminators) (hw : Steady P g₀ w)
    (hfilled : ∀ s, stages.head? = some s → s.kind = .switchResolver → w.graph.Filled)
    (h : Accounts g₀ changes w) (hrun : (stages.foldlM runStage changes).run w = .ok changes' w') :
    Accounts g₀ changes' w' := by
  induction stages generalizing w changes with
  | nil =>
    obtain ⟨rfl, rfl⟩ := Work.pure_eq_ok.mp hrun
    exact h
  | cons s stages ih =>
    rw [List.foldlM_cons] at hrun
    obtain ⟨between, w₁, hfirst, hrest⟩ := Work.bind_eq_ok.mp hrun
    have hkind := hkinds s List.mem_cons_self
    rw [List.pairwise_cons] at honce
    refine ih (fun t ht => hkinds t (List.mem_cons_of_mem _ ht)) honce.2
      (runStage_steady hkind hP hw hfirst).1 (fun t ht hresolver => ?_)
      (runStage_accounts hkind hP hw (hfilled s rfl) h hfirst) hrest
    exact absurd hresolver (honce.1 t (List.mem_of_head? ht))

/-! ## The work as a whole -/

/-- Without changes before it, the last stage finds nothing to change in a graph that has just
    been built. So the changes account for the method that is written out. -/
theorem Worked.accounts {settings : Settings} {m : Method}
    (hworked : Worked settings w changes w') (hsound : w.graph.Sound P w.graph)
    (hfacts : w.facts = none) (hmachine : settings.machine = .ok P.machine)
    (hP : P.terminators = w.graph.terminators) (hfilled : w.graph.Filled)
    (hsettled : Reconcile.changeCount w.graph = 0)
    (hm : m = w'.graph.relinked.toMethod) (hvalid : m.Valid) :
    m.weight + progress changes ≤ weightOf w.graph.code
      ∧ ((∀ e ∈ changes, e.2 = 0) ∨ 0 < progress changes) := by
  obtain ⟨early, w₁, w₂, changes₂, hearly, hgraph, hsteady, hrun, hsteady₂, hlast⟩ :=
    hworked.split hsound hfacts hmachine hP
  have hstart : Accounts w.graph [(unreachableKey, w.graph.unreachable.length)] w₁ := by
    have hnone : Accounts w.graph [] w := ⟨Nat.le_refl _, Or.inl ⟨nofun, rfl⟩⟩
    have hpruned := hnone.prune hfilled hgraph
    unfold addChanges Entries.update at hpruned
    rwa [Option.getD, Nat.zero_add] at hpruned
  have honce : early.Pairwise fun _ t => t.kind ≠ .switchResolver := by
    have hkinds : (early.map (·.kind)).Pairwise fun _ k => k ≠ .switchResolver :=
      List.Pairwise.sublist hearly (by decide)
    exact List.pairwise_map.mp hkinds
  have haccounts := runStages_accounts (early_kind hearly) honce hP hsteady
    (fun _ _ _ => hgraph ▸ hfilled.pruned) hstart hrun
  have hweight : m.weight = weightOf w₂.graph.code := by
    have hlast' : .exceptionReconciler ∉ settings.activeKinds ∧ w'.graph = w₂.graph
        ∨ w'.graph = Reconcile.reconciled w₂.graph ∧ Reconcile.regionDefects w₂.graph = [] :=
      hlast.imp (fun h => ⟨h.1, h.2.1⟩) fun h => ⟨h.1, h.2.1⟩
    have hwritten := written hsteady₂.sound.formed hlast' hm hvalid
    rw [Method.weight_eq, hwritten.1.code]
    exact weightOf_map (fun ins => w₂.graph.relinkInstruction_opcode ins) _
  rw [hweight]
  rcases hlast with ⟨-, -, rfl⟩ | ⟨-, -, rfl⟩
  · exact ⟨haccounts.lighter, haccounts.idle.imp_left (·.1)⟩
  · rw [progress_addChanges, if_neg (by decide), Nat.add_zero]
    refine ⟨haccounts.lighter, haccounts.idle.imp_left fun hidle => ?_⟩
    rw [hidle.2, hsettled]
    exact addChanges_zero hidle.1 _

end Pipeline

/-! ## Normalizing again -/

namespace Outcome

/-- The number of changes in a report that make a method lighter. -/
def progress (o : Outcome) : Int :=
  Number.total (Pipeline.progressKeys.map fun key => (o.changes.lookup key).getD 0)

theorem progress_eq {o : Outcome} {changes : List (String × Nat)}
    (h : o.changes = changes.map fun p => (p.1, (p.2 : Int))) :
    o.progress = Pipeline.progress changes := by
  have hlookup (key : String) :
      (o.changes.lookup key).getD 0 = ((changes.lookup key).getD 0 : Nat) := by
    rw [h]
    clear h
    induction changes with
    | nil => rfl
    | cons e changes ih =>
      rw [List.map_cons, List.lookup_cons, List.lookup_cons]
      split
      · rfl
      · exact ih
  unfold progress Pipeline.progress
  rw [List.map_congr_left fun key _ => hlookup key]
  generalize Pipeline.progressKeys = keys
  induction keys with
  | nil => rfl
  | cons key keys ih =>
    rw [List.map_cons, List.map_cons, Number.totalSize_cons, Int.natCast_add, ← ih]
    rfl

end Outcome

namespace Method

variable {m : Method} {settings : Settings}

theorem weight_copy (m : Method) : weightOf m.copy.code = m.weight := by
  rw [weight_eq]
  exact weightOf_map Instruction.copy_opcode m.code

/-- A method that is rewritten gets lighter by every change that is counted, and there is one at
    least. -/
theorem weight_rewritten (hnodup : (m.code.map (·.uid)).Nodup)
    (h : (m.normalize settings).rewritten = true) :
    1 ≤ (m.normalize settings).progress
      ∧ ((m.normalize settings).body.weight : Int) + (m.normalize settings).progress ≤ m.weight
      ∧ 1 ≤ (m.normalize settings).body.weight
      ∧ ((m.normalize settings).body.code.map (·.uid)).Nodup := by
  obtain ⟨M, hmachine⟩ := machine_of_rewritten hnodup h
  let P : Platform := ⟨M, default, settings.terminators⟩
  have hnodup' : ((m.normalize settings).body.code.map (·.uid)).Nodup := by
    obtain ⟨_, g, -, hsound, -, hwritten, -⟩ :=
      normalize_written (P := P) hnodup hmachine rfl h
    exact hwritten.uids_nodup hsound.formed
  obtain ⟨g, w, hbuild, hwork⟩ := normalize_eq h
  have hcopy := copy_nodup hnodup
  obtain ⟨hformed, hlinked⟩ := Graph.build_formed hbuild hcopy
  obtain ⟨changes, w₂, hworked, ⟨-, hnot, -⟩ | ⟨hsome, -, hchanges, hbody, hvalid⟩⟩ :=
    Pipeline.work_eq_ok hformed hlinked hwork
  · rw [h] at hnot
    cases hnot
  have hP : P.terminators = g.terminators := (Graph.build_terminators hbuild).symm
  obtain ⟨hlighter, hidle⟩ := hworked.accounts (build_sound P hbuild hcopy) rfl hmachine hP
    (Graph.build_firstLabels hbuild).filled (Reconcile.changeCount_built hbuild hcopy) hbody hvalid
  have hcode : weightOf g.code = m.weight := by
    rw [Graph.build_code hbuild, weight_copy]
  have hpos : 0 < Pipeline.progress changes := by
    refine hidle.resolve_left fun hzero => ?_
    rw [List.all_eq_true.mpr fun e he => beq_iff_eq.mpr (hzero e he)] at hsome
    cases hsome
  have hbefore : (m.normalize settings).body.weight + Pipeline.progress changes ≤ m.weight :=
    hcode ▸ hlighter
  refine ⟨?_, ?_, ?_, hnodup'⟩
  · rw [Outcome.progress_eq hchanges]
    omega
  · rw [Outcome.progress_eq hchanges]
    omega
  · rw [weight_eq]
    exact weightOf_pos hvalid.nonempty

/-- Normalizing once. -/
def renew (settings : Settings) (m : Method) : Method := (m.normalize settings).body

/-- Normalizing again and again comes to a method that is not rewritten, after as many runs as
    the method weighs at most. -/
theorem normalize_converges (m : Method) (settings : Settings)
    (hnodup : (m.code.map (·.uid)).Nodup) :
    ((m.normalize settings).rewritten = true →
        1 ≤ (m.normalize settings).progress
          ∧ ((m.normalize settings).body.weight : Int) + (m.normalize settings).progress
            ≤ m.weight)
      ∧ ∃ runs < max 1 m.weight,
        (∀ k < runs, (((renew settings)^[k] m).normalize settings).rewritten = true)
        ∧ (((renew settings)^[runs] m).normalize settings).rewritten = false := by
  refine ⟨fun h => ⟨(weight_rewritten hnodup h).1, (weight_rewritten hnodup h).2.1⟩, ?_⟩
  -- The weight bounds the number of runs.
  induction hweight : m.weight using Nat.strongRecOn generalizing m with
  | _ n ih =>
    subst hweight
    cases h : (m.normalize settings).rewritten with
    | false => exact ⟨0, by omega, fun k hk => absurd hk (Nat.not_lt_zero k), h⟩
    | true =>
      obtain ⟨hpos, hlighter, hleft, hnodup'⟩ := weight_rewritten hnodup h
      have hless : (renew settings m).weight < m.weight := by
        unfold renew
        omega
      obtain ⟨runs, hruns, hall, hlast⟩ := ih _ hless (renew settings m) hnodup' rfl
      have hheavy : 1 ≤ (renew settings m).weight := hleft
      refine ⟨runs + 1, by omega, fun k hk => ?_, hlast⟩
      cases k with
      | zero => exact h
      | succ k => exact hall k (by omega)

theorem knownDispatch_converges :
    (1 ≤ (knownDispatch.normalize {}).progress
        ∧ ((knownDispatch.normalize {}).body.weight : Int)
            + (knownDispatch.normalize {}).progress ≤ knownDispatch.weight)
      ∧ ∃ runs < max 1 knownDispatch.weight,
        (∀ k < runs, (((renew {})^[k] knownDispatch).normalize {}).rewritten = true)
        ∧ (((renew {})^[runs] knownDispatch).normalize {}).rewritten = false :=
  have hconverges := normalize_converges knownDispatch {} (by decide)
  ⟨hconverges.1 (by decide +kernel), hconverges.2⟩

end Method

end Untangle
