/-
  Untangle.Proofs.Stage.Run

  What the stages keep. Every stage but the last one makes a sound graph of a sound graph.
  The resolver is repeated for as long as it finds something. Each round takes a dispatch
  away, so the rounds last until one finds nothing, and what is left has just been pruned.
-/
import Untangle.Pipeline
import Untangle.Proofs.Graph.Traced
import Untangle.Proofs.Stage.Fold
import Untangle.Proofs.Stage.Junk
import Untangle.Proofs.Stage.Reconcile
import Untangle.Proofs.Stage.Resolve

namespace Untangle

namespace Graph

/-- A graph on the way from the first one: it is well-formed, shows what that one shows, and is
    made of its blocks. -/
structure Sound (P : Platform) (g₀ g : Graph) : Prop where
  headed : g.Headed
  kept : g₀.Kept P g
  traced : ∃ T f, Traced g₀ g T f

theorem merged_kept {g : Graph} (h : g.Formed) (P : Platform) : g.Kept P g.merged := by
  refine ⟨h.merged_refined, ?_, ?_, ?_, fun j hj => Or.inl ?_⟩
  · rw [merged_eq]; split <;> rfl
  · rw [merged_eq]
    split
    · rfl
    · show (g.spans.map _).map _ = _
      rw [List.map_map]
      rfl
  · rw [merged_eq]; split <;> exact List.Subset.refl _
  · rw [merged_eq] at hj
    split at hj
    · exact hj
    · rwa [connected_code, rejoined_code] at hj

theorem pruned_kept {g : Graph} (h : g.Formed) (hlinked : g.Linked) {P : Platform}
    (hP : P.terminators = g.terminators) : g.Kept P g.pruned := by
  unfold Graph.pruned
  split
  · exact .refl P g
  · refine Kept.trans ?_ (merged_kept (h.removeUnreachable hlinked) P)
    refine ⟨h.removeUnreachable_refined hlinked hP, rfl, ?_, List.filter_sublist.subset,
      fun j hj => Or.inl ?_⟩
    · show (g.spans.map _).map _ = _
      rw [List.map_map]
      rfl
    · exact (removeUnreachable_code_sublist g).subset hj

namespace Sound

variable {P : Platform} {g₀ g : Graph}

theorem formed (h : Sound P g₀ g) : g.Formed := by
  obtain ⟨T, f, htraced⟩ := h.traced
  exact htraced.formed

theorem linked (h : Sound P g₀ g) : g.Linked := by
  obtain ⟨T, f, htraced⟩ := h.traced
  exact htraced.linked

/-- On the way from itself a graph is where it starts. -/
theorem start {g : Graph} (hformed : g.Formed) (hlinked : g.Linked) (hheaded : g.Headed)
    (hranged : ∀ s ∈ g.spans, s.tryBlocks ⊆ g.labels ∧ s.handlerBlocks ⊆ g.labels) :
    Sound P g g :=
  ⟨hheaded, Kept.refl P g, _, _, Traced.start hformed hlinked hranged⟩

theorem terminators (h : Sound P g₀ g) (hP : P.terminators = g₀.terminators) :
    P.terminators = g.terminators :=
  hP.trans h.kept.terminators.symm

theorem pruned (h : Sound P g₀ g) (hP : P.terminators = g₀.terminators) :
    Sound P g₀ g.pruned ∧ g.pruned.AllReached := by
  obtain ⟨T, f, htraced⟩ := h.traced
  obtain ⟨T', htraced'⟩ := htraced.pruned
  exact ⟨⟨h.headed.pruned h.formed h.linked,
    h.kept.trans (pruned_kept h.formed h.linked (h.terminators hP)), T', f, htraced'⟩,
    (h.formed.pruned h.linked).reached⟩

end Sound

/-- The dispatches in blocks that are out of reach. -/
def lostDispatches (g : Graph) : Nat := (g.unreachable.flatMap (·.code)).countP Dispatch.isDispatch

/-- A dispatch is pruned with its block, or is left. -/
theorem dispatchCount_pruned (g : Graph) :
    Pipeline.dispatchCount g.pruned + g.lostDispatches = Pipeline.dispatchCount g := by
  unfold Graph.pruned
  split
  · rename_i hnone
    rw [lostDispatches, List.isEmpty_iff.mp hnone]
    rfl
  · have hcode : g.removeUnreachable.code
        = (g.blocks.filter fun b => g.isLive b.label).flatMap (·.code) := by
      rw [Graph.code, removeUnreachable_blocks, List.flatMap_map]
    have hparts := ((List.filter_append_perm (fun b : Block => g.isLive b.label)
      g.blocks).flatMap_right (·.code)).countP_eq Dispatch.isDispatch
    rw [List.flatMap_append, List.countP_append, ← hcode, ← merged_code] at hparts
    exact hparts

end Graph

/-- A workbench with a sound graph on it. -/
structure Workbench.Ready (P : Platform) (g₀ : Graph) (w : Workbench) : Prop where
  sound : g₀.Sound P w.graph
  informed : w.Informed
  machine : P.machine = w.analysis.machine

namespace Stage

/-- What a run of any stage but the last one makes of a graph. -/
theorem run_eq_ok {s : Stage} {w w' : Workbench} {n : Nat} (hkind : s.kind ≠ .exceptionReconciler)
    (h : w.graph.Formed) (hlinked : w.graph.Linked) (hrun : s.run.run w = .ok n w') :
    (s.kind = .switchResolver ∧ ∃ facts, w'.graph = Dispatch.resolved facts w.graph
        ∧ n = Dispatch.chosenCount facts w.graph)
      ∨ (s.kind = .junkEliminator ∧ w'.graph = Junk.removed w.graph ∧ n = Junk.amount w.graph)
      ∨ (s.kind = .constantFolder ∧ w'.graph = (s.folder w).folded w.graph
        ∧ n = (s.folder w).count w.graph) := by
  unfold run at hrun
  cases hs : s.kind with
  | switchResolver =>
    rw [hs] at hrun
    obtain ⟨facts, w₁, hfacts, -⟩ := Work.bind_eq_ok.mp hrun
    obtain ⟨w₂, hrun', halike⟩ := resolveSwitches_run h hfacts
    change resolveSwitches.run w = _ at hrun
    rw [hrun] at hrun'
    cases hrun'
    exact Or.inl ⟨rfl, facts, halike.graph, rfl⟩
  | junkEliminator =>
    rw [hs] at hrun
    obtain ⟨w₁, hrun', halike⟩ := eliminateJunk_run h hlinked
    change eliminateJunk.run w = _ at hrun
    rw [hrun] at hrun'
    cases hrun'
    exact Or.inr (Or.inl ⟨rfl, halike.graph, rfl⟩)
  | constantFolder =>
    rw [hs] at hrun
    obtain ⟨rfl, hgraph, -⟩ := foldConstants_eq_ok h hlinked hrun
    exact Or.inr (Or.inr ⟨rfl, hgraph, rfl⟩)
  | exceptionReconciler => exact absurd hs hkind

/-- What a run of a stage comes to that has made a number of changes. -/
structure Ran (P : Platform) (g₀ : Graph) (w : Workbench) (n : Nat) (w' : Workbench) : Prop where
  sound : g₀.Sound P w'.graph
  analysis : w'.analysis = w.analysis
  issues : w'.issues = w.issues
  /-- Without a change the graph and what is known of it stay. -/
  idle : n = 0 → w'.graph = w.graph ∧ w'.Informed

variable {P : Platform} {g₀ : Graph} {w w' : Workbench} {n : Nat}

theorem Ran.ready (h : Ran P g₀ w n w') (hw : w.Ready P g₀) (hinformed : w'.Informed) :
    w'.Ready P g₀ :=
  ⟨h.sound, hinformed, by rw [h.analysis]; exact hw.machine⟩

/-- A run of the resolver takes away as many dispatches as it counts. -/
theorem resolveSwitches_ran (hw : w.Ready P g₀) (hP : P.terminators = g₀.terminators)
    (hrun : resolveSwitches.run w = .ok n w') :
    Ran P g₀ w n w'
      ∧ Pipeline.dispatchCount w'.graph + n = Pipeline.dispatchCount w.graph := by
  have hformed := hw.sound.formed
  have hlinked := hw.sound.linked
  obtain ⟨hheaded, hkept, T, f, htraced⟩ := hw.sound
  obtain ⟨facts, w₁, hfacts, -⟩ := Work.bind_eq_ok.mp hrun
  obtain ⟨hgraph, hanalysis, hissues, hsome, -⟩ := Work.facts_eq_ok hfacts
  have hfound := hw.informed.found hfacts
  obtain ⟨stackAt?, hfrom⟩ := Analysis.findings_from hformed hlinked hfound
  obtain ⟨w₂, hrun', halike⟩ := resolveSwitches_run hformed hfacts
  rw [hrun] at hrun'
  cases hrun'
  have hkept' := Dispatch.resolved_kept hformed hlinked (hw.sound.terminators hP) hw.machine hfrom
  obtain ⟨number, hchanged⟩ := hformed.changed hlinked (Dispatch.suits facts hformed)
  have hgraph' : w'.graph = Dispatch.resolved facts w.graph := halike.graph
  refine ⟨⟨?_, halike.analysis.trans hanalysis, halike.issues.trans hissues, fun hzero => ?_⟩, ?_⟩
  · rw [hgraph']
    exact ⟨Dispatch.resolved_headed hheaded hformed hlinked hfrom, hkept.trans hkept', T, _,
      htraced.changed hchanged fun b hb j hj =>
        Dispatch.gentle (hformed.block_uids_nodup hb) hj⟩
  · have hsame : w'.graph = w.graph := hgraph'.trans (Dispatch.resolved_of_count hzero)
    refine ⟨hsame, fun f hf => ?_⟩
    have hf' : w₁.facts = some f := halike.facts ▸ hf
    rw [hsome] at hf'
    cases hf'
    have hanalysis' : w'.analysis = w.analysis := halike.analysis.trans hanalysis
    rw [hsame, hanalysis']
    exact hfound
  · rw [hgraph']
    exact Dispatch.resolved_fewer hformed hlinked

theorem eliminateJunk_ran (hw : w.Ready P g₀) (hrun : eliminateJunk.run w = .ok n w') :
    Ran P g₀ w n w' ∧ (w.graph.AllReached → w'.graph.AllReached) := by
  have hformed := hw.sound.formed
  have hlinked := hw.sound.linked
  obtain ⟨hheaded, hkept, T, f, htraced⟩ := hw.sound
  obtain ⟨w₁, hrun', halike⟩ := eliminateJunk_run hformed hlinked
  rw [hrun] at hrun'
  cases hrun'
  have hgraph : w'.graph = Junk.removed w.graph := halike.graph
  have hkept' := Junk.removed_kept hformed hlinked P
  obtain ⟨number, hchanged⟩ := hformed.changed hlinked (Junk.suits w.graph)
  refine ⟨⟨?_, halike.analysis, halike.issues, fun hzero => ?_⟩, fun hreached => ?_⟩
  · rw [hgraph]
    exact ⟨Junk.removed_headed hheaded hformed hlinked, hkept.trans hkept', T, _,
      htraced.changed hchanged fun b hb j hj => Junk.gentle (hformed.block_uids_nodup hb) hj⟩
  · have hsame := Junk.removed_of_amount hformed hzero
    rw [hsame] at halike
    exact ⟨hgraph.trans hsame, halike.informed hw.informed⟩
  · rw [hgraph]
    exact (Junk.removed_pruned ⟨hformed, hlinked, hreached⟩).reached

theorem foldConstants_ran {s : Stage} (hw : w.Ready P g₀)
    (hrun : s.foldConstants.run w = .ok n w') :
    Ran P g₀ w n w' ∧ (w.graph.AllReached → w'.graph.AllReached) := by
  have hformed := hw.sound.formed
  have hlinked := hw.sound.linked
  obtain ⟨hheaded, hkept, T, f, htraced⟩ := hw.sound
  obtain ⟨rfl, hgraph, hanalysis, hissues, hinformed⟩ := foldConstants_eq_ok hformed hlinked hrun
  have hkept' := (s.folder w).folded_kept hformed hlinked (P := P) hw.machine
  obtain ⟨number, hchanged⟩ := hformed.changed hlinked (Folder.suits (s.folder w) hformed)
  refine ⟨⟨?_, hanalysis, hissues, fun hzero => ?_⟩, fun hreached => ?_⟩
  · rw [hgraph]
    exact ⟨Folder.folded_headed (s.folder w) hheaded hformed hlinked, hkept.trans hkept', T, _,
      htraced.changed hchanged fun b hb j hj =>
        Folder.gentle (s.folder w) (hformed.block_uids_nodup hb) hj⟩
  · exact ⟨hgraph.trans (Folder.folded_of_count hzero), hinformed hzero hw.informed⟩
  · rw [hgraph]
    exact (Folder.folded_pruned (s.folder w) ⟨hformed, hlinked, hreached⟩).reached

/-- A run of any stage but the last one. -/
theorem run_ran {s : Stage} (hkind : s.kind ≠ .exceptionReconciler) (hw : w.Ready P g₀)
    (hP : P.terminators = g₀.terminators) (hrun : s.run.run w = .ok n w') :
    Ran P g₀ w n w'
      ∧ (s.kind = .switchResolver →
        Pipeline.dispatchCount w'.graph + n = Pipeline.dispatchCount w.graph)
      ∧ (s.kind ≠ .switchResolver → w.graph.AllReached → w'.graph.AllReached) := by
  unfold run at hrun
  cases hs : s.kind with
  | switchResolver =>
    rw [hs] at hrun
    obtain ⟨hran, hcount⟩ := resolveSwitches_ran hw hP hrun
    exact ⟨hran, fun _ => hcount, fun h => absurd rfl h⟩
  | junkEliminator =>
    rw [hs] at hrun
    obtain ⟨hran, hreached⟩ := eliminateJunk_ran hw hrun
    exact ⟨hran, nofun, fun _ => hreached⟩
  | constantFolder =>
    rw [hs] at hrun
    obtain ⟨hran, hreached⟩ := foldConstants_ran hw hrun
    exact ⟨hran, nofun, fun _ => hreached⟩
  | exceptionReconciler => exact absurd hs hkind

end Stage

namespace Pipeline

variable {P : Platform} {g₀ : Graph} {w w' : Workbench} {s : Stage}
  {changes changes' : List (String × Nat)}

/-- A workbench on which the next stage can start: all that is left is in reach. -/
structure Steady (P : Platform) (g₀ : Graph) (w : Workbench) : Prop extends w.Ready P g₀ where
  reached : w.graph.AllReached

/-- What a round of resolving again comes to. -/
theorem resolveAgain_succ (h : w.graph.Formed) (hlinked : w.graph.Linked) {rounds : Nat}
    (hrun : (resolveAgain s (rounds + 1) changes).run w = .ok changes' w') :
    ∃ n w₁ w₂ changes₂, ({ w with graph := w.graph.pruned, facts := none } : Workbench).Alike w₁
      ∧ s.run.run w₁ = .ok n w₂
      ∧ changes₂ = addChanges (addChanges changes unreachableKey w.graph.unreachable.length)
          s.kind.key n
      ∧ (n = 0 ∧ changes' = changes₂ ∧ w' = w₂
        ∨ n ≠ 0 ∧ (resolveAgain s rounds changes₂).run w₂ = .ok changes' w') := by
  obtain ⟨dead, w₁, hprune, hrest⟩ := Work.bind_eq_ok.mp hrun
  obtain ⟨w₁', hprune', halike⟩ := Work.prune_run h hlinked
  rw [hprune] at hprune'
  cases hprune'
  rw [Work.invalidate_bind] at hrest
  obtain ⟨n, w₂, hagain, hrest⟩ := Work.bind_eq_ok.mp hrest
  dsimp only at hrest
  rw [List.length_map] at hrest
  refine ⟨n, { w₁ with facts := none }, w₂, _,
    ⟨halike.graph, halike.analysis, rfl, halike.issues⟩, hagain, rfl, ?_⟩
  split at hrest
  · rename_i hzero
    obtain ⟨rfl, rfl⟩ := Work.pure_eq_ok.mp hrest
    exact Or.inl ⟨eq_of_beq hzero, rfl, rfl⟩
  · rename_i hsome
    exact Or.inr ⟨fun hzero => hsome (beq_iff_eq.mpr hzero), hrest⟩

/-- What a stage comes to. When it has changed anything, the facts are given up, and the
    resolver is repeated. -/
theorem runStage_eq_ok (hrun : (runStage changes s).run w = .ok changes' w') :
    ∃ n w₁ changes₁, s.run.run w = .ok n w₁ ∧ changes₁ = addChanges changes s.kind.key n
      ∧ (n = 0 ∧ changes' = changes₁ ∧ w' = w₁
        ∨ n ≠ 0 ∧ ∃ w₂, ({ w₁ with facts := none } : Workbench).Alike w₂
          ∧ (s.kind = .switchResolver
              ∧ (resolveAgain s (dispatchCount w₁.graph + 1) changes₁).run w₂ = .ok changes' w'
            ∨ s.kind ≠ .switchResolver ∧ changes' = changes₁ ∧ w' = w₂)) := by
  obtain ⟨n, w₁, hfirst, hrest⟩ := Work.bind_eq_ok.mp hrun
  refine ⟨n, w₁, _, hfirst, rfl, ?_⟩
  dsimp only at hrest
  split at hrest
  · rename_i hzero
    obtain ⟨rfl, rfl⟩ := Work.pure_eq_ok.mp hrest
    exact Or.inl ⟨eq_of_beq hzero, rfl, rfl⟩
  rename_i hsome
  refine Or.inr ⟨fun hzero => hsome (beq_iff_eq.mpr hzero), ?_⟩
  obtain ⟨_, w₂, hlog, hrest⟩ := Work.bind_eq_ok.mp hrest
  have halike := ((Work.says_log _ _ _).alike hlog).2
  rw [Work.invalidate_bind] at hrest
  refine ⟨{ w₂ with facts := none }, ⟨halike.graph, halike.analysis, rfl, halike.issues⟩, ?_⟩
  split at hrest
  · rename_i hs
    rw [Work.get_bind] at hrest
    rw [← halike.graph]
    exact Or.inl ⟨eq_of_beq hs, hrest⟩
  · rename_i hs
    obtain ⟨rfl, rfl⟩ := Work.pure_eq_ok.mp hrest
    exact Or.inr ⟨fun h => hs (beq_iff_eq.mpr h), rfl, rfl⟩

/-- Resolving again ends with a round that finds nothing, right after pruning. -/
theorem resolveAgain_steady (hs : s.kind = .switchResolver) (hP : P.terminators = g₀.terminators)
    {rounds : Nat} (hrounds : dispatchCount w.graph < rounds) (hsound : g₀.Sound P w.graph)
    (hmachine : P.machine = w.analysis.machine)
    (hrun : (resolveAgain s rounds changes).run w = .ok changes' w') :
    Steady P g₀ w' ∧ w'.analysis = w.analysis ∧ w'.issues = w.issues := by
  -- The rounds do not run out, as one that is followed by another has resolved a dispatch.
  induction rounds generalizing w changes with
  | zero => exact absurd hrounds (Nat.not_lt_zero _)
  | succ rounds ih =>
    obtain ⟨n, w₁, w₂, changes₂, halike, hagain, -, hrest⟩ :=
      resolveAgain_succ hsound.formed hsound.linked hrun
    have hgraph : w₁.graph = w.graph.pruned := halike.graph
    obtain ⟨hpruned, hreached⟩ := hsound.pruned hP
    have hready : w₁.Ready P g₀ :=
      ⟨hgraph ▸ hpruned, Workbench.informed_of_none halike.facts,
        hmachine.trans (by rw [halike.analysis])⟩
    obtain ⟨hran, hcount, -⟩ := s.run_ran (by rw [hs]; decide) hready hP hagain
    have hanalysis : w₂.analysis = w.analysis := hran.analysis.trans halike.analysis
    have hissues : w₂.issues = w.issues := hran.issues.trans halike.issues
    rcases hrest with ⟨hzero, -, rfl⟩ | ⟨hpos, hrest⟩
    · obtain ⟨hsame, hinformed⟩ := hran.idle hzero
      refine ⟨⟨hran.ready hready hinformed, ?_⟩, hanalysis, hissues⟩
      rw [hsame, hgraph]
      exact hreached
    · have hless := hcount hs
      have hpruned := Graph.dispatchCount_pruned w.graph
      rw [← hgraph] at hpruned
      obtain ⟨hsteady, hanalysis', hissues'⟩ := ih (by omega) hran.sound
        (hmachine.trans (by rw [hanalysis])) hrest
      exact ⟨hsteady, hanalysis'.trans hanalysis, hissues'.trans hissues⟩

/-- A stage, repeated or not, leaves what the next stage can start on. -/
theorem runStage_steady (hkind : s.kind ≠ .exceptionReconciler)
    (hP : P.terminators = g₀.terminators) (hw : Steady P g₀ w)
    (hrun : (runStage changes s).run w = .ok changes' w') :
    Steady P g₀ w' ∧ w'.analysis = w.analysis ∧ w'.issues = w.issues := by
  obtain ⟨n, w₁, changes₁, hfirst, -, hrest⟩ := runStage_eq_ok hrun
  obtain ⟨hran, -, hreached⟩ := s.run_ran hkind hw.toReady hP hfirst
  rcases hrest with ⟨hzero, -, rfl⟩ | ⟨-, w₂, halike, hrest⟩
  · obtain ⟨hsame, hinformed⟩ := hran.idle hzero
    exact ⟨⟨hran.ready hw.toReady hinformed, hsame ▸ hw.reached⟩, hran.analysis, hran.issues⟩
  have hgraph : w₂.graph = w₁.graph := halike.graph
  have hanalysis : w₂.analysis = w.analysis := halike.analysis.trans hran.analysis
  have hissues : w₂.issues = w.issues := halike.issues.trans hran.issues
  have hmachine : P.machine = w₂.analysis.machine := hanalysis ▸ hw.machine
  have hsound : g₀.Sound P w₂.graph := hgraph ▸ hran.sound
  rcases hrest with ⟨hs, hrest⟩ | ⟨hs, -, rfl⟩
  · obtain ⟨hsteady, hanalysis', hissues'⟩ := resolveAgain_steady hs hP
      (hgraph ▸ Nat.lt_succ_self _) hsound hmachine hrest
    exact ⟨hsteady, hanalysis'.trans hanalysis, hissues'.trans hissues⟩
  · refine ⟨⟨⟨hsound, Workbench.informed_of_none halike.facts, hmachine⟩, ?_⟩, hanalysis, hissues⟩
    rw [hgraph]
    exact hreached hs hw.reached

/-- All stages but the last one, one after the other. -/
theorem runStages_steady {stages : List Stage}
    (hkinds : ∀ s ∈ stages, s.kind ≠ .exceptionReconciler)
    (hP : P.terminators = g₀.terminators) (hw : Steady P g₀ w)
    (hrun : (stages.foldlM runStage changes).run w = .ok changes' w') :
    Steady P g₀ w' ∧ w'.analysis = w.analysis ∧ w'.issues = w.issues := by
  induction stages generalizing w changes with
  | nil =>
    obtain ⟨-, rfl⟩ := Work.pure_eq_ok.mp hrun
    exact ⟨hw, rfl, rfl⟩
  | cons s stages ih =>
    rw [List.foldlM_cons] at hrun
    obtain ⟨between, w₁, hfirst, hrest⟩ := Work.bind_eq_ok.mp hrun
    obtain ⟨hsteady, hanalysis, hissues⟩ :=
      runStage_steady (hkinds s List.mem_cons_self) hP hw hfirst
    obtain ⟨hsteady', hanalysis', hissues'⟩ :=
      ih (fun t ht => hkinds t (List.mem_cons_of_mem _ ht)) hsteady hrest
    exact ⟨hsteady', hanalysis'.trans hanalysis, hissues'.trans hissues⟩

/-! ## Invariants of the graph -/

/-- What pruning and the stages but the last one keep of a graph. -/
structure Invariant (P : Platform) (g₀ : Graph) (I : Graph → Prop) : Prop where
  pruned : ∀ {g}, I g → I g.pruned
  run : ∀ {s : Stage} {w w' n}, s.kind ≠ .exceptionReconciler → w.Ready P g₀ → I w.graph
    → s.run.run w = .ok n w' → I w'.graph

namespace Invariant

variable {I : Graph → Prop}

theorem resolveAgain (hI : Invariant P g₀ I) (hs : s.kind = .switchResolver)
    (hP : P.terminators = g₀.terminators) {rounds : Nat} (hsound : g₀.Sound P w.graph)
    (hmachine : P.machine = w.analysis.machine) (h : I w.graph)
    (hrun : (Pipeline.resolveAgain s rounds changes).run w = .ok changes' w') : I w'.graph := by
  induction rounds generalizing w changes with
  | zero =>
    obtain ⟨rfl, rfl⟩ := Work.pure_eq_ok.mp hrun
    exact h
  | succ rounds ih =>
    obtain ⟨n, w₁, w₂, changes₂, halike, hagain, -, hrest⟩ :=
      resolveAgain_succ hsound.formed hsound.linked hrun
    have hgraph : w₁.graph = w.graph.pruned := halike.graph
    have hanalysis : w₁.analysis = w.analysis := halike.analysis
    have hkind : s.kind ≠ .exceptionReconciler := by rw [hs]; decide
    have hready : w₁.Ready P g₀ :=
      ⟨hgraph ▸ (hsound.pruned hP).1, Workbench.informed_of_none halike.facts,
        hanalysis ▸ hmachine⟩
    have hran := (s.run_ran hkind hready hP hagain).1
    have hkept := hI.run hkind hready (hgraph ▸ hI.pruned h) hagain
    rcases hrest with ⟨-, -, rfl⟩ | ⟨-, hrest⟩
    · exact hkept
    · refine ih hran.sound ?_ hkept hrest
      rw [hran.analysis, hanalysis]
      exact hmachine

theorem runStage (hI : Invariant P g₀ I) (hkind : s.kind ≠ .exceptionReconciler)
    (hP : P.terminators = g₀.terminators) (hw : Steady P g₀ w) (h : I w.graph)
    (hrun : (Pipeline.runStage changes s).run w = .ok changes' w') : I w'.graph := by
  obtain ⟨n, w₁, changes₁, hfirst, -, hrest⟩ := runStage_eq_ok hrun
  have hran := (s.run_ran hkind hw.toReady hP hfirst).1
  have hkept := hI.run hkind hw.toReady h hfirst
  rcases hrest with ⟨-, -, rfl⟩ | ⟨-, w₂, halike, ⟨hs, hrest⟩ | ⟨-, -, rfl⟩⟩
  · exact hkept
  · have hgraph : w₂.graph = w₁.graph := halike.graph
    have hanalysis : w₂.analysis = w.analysis := halike.analysis.trans hran.analysis
    exact hI.resolveAgain hs hP (hgraph ▸ hran.sound) (hanalysis ▸ hw.machine) (hgraph ▸ hkept)
      hrest
  · rw [halike.graph]
    exact hkept

/-- What one run and pruning keep, all stages but the last one keep. -/
theorem runStages (hI : Invariant P g₀ I) {stages : List Stage}
    (hkinds : ∀ s ∈ stages, s.kind ≠ .exceptionReconciler)
    (hP : P.terminators = g₀.terminators) (hw : Steady P g₀ w) (h : I w.graph)
    (hrun : (stages.foldlM Pipeline.runStage changes).run w = .ok changes' w') : I w'.graph := by
  induction stages generalizing w changes with
  | nil =>
    obtain ⟨rfl, rfl⟩ := Work.pure_eq_ok.mp hrun
    exact h
  | cons s stages ih =>
    rw [List.foldlM_cons] at hrun
    obtain ⟨between, w₁, hfirst, hrest⟩ := Work.bind_eq_ok.mp hrun
    have hkind := hkinds s List.mem_cons_self
    exact ih (fun t ht => hkinds t (List.mem_cons_of_mem _ ht))
      (runStage_steady hkind hP hw hfirst).1 (hI.runStage hkind hP hw h hfirst) hrest

end Invariant

end Pipeline

end Untangle
