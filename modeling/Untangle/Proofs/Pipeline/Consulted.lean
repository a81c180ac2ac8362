/-
  Untangle.Proofs.Pipeline.Consulted

  The facts that the folder consults. Facts are kept until something changes, and a stage that
  has changed something gives them up. So when a stage starts in the course of normalizing a
  method, facts that are there are those of the graph as it stands, and what the folder finds of
  an operation is what they say (`Method.normalize_folds_proven`).
-/
import Untangle.Proofs.Pipeline.Behaviour
import Untangle.Proofs.Stage.Foreseen

namespace Untangle

namespace Pipeline

/-! ## Where a stage starts -/

/-- The work before the stages: pruning, and making the analysis and the stages ready. It gives
    the stages and the number of blocks removed. -/
def opening (settings : Settings) : Work (List Stage × Nat) := do
  let built := builtNote (← get).graph
  Work.log built.logger built.level built.text
  let dead ← Work.prune
  let analysis ← match settings.analysisOf with
    | .ok a => pure a
    | .error e => throw (.misuse e)
  modify fun w => { w with analysis }
  let stages ← settings.activeKinds.mapM fun kind => prepare settings kind
  return (stages, dead.length)

/-- All the work is this, the stages, and the end. -/
theorem work_eq_opening (settings : Settings) (m : Method) : work settings m = (do
    let (stages, dead) ← opening settings
    let changes ← stages.foldlM runStage [(unreachableKey, dead)]
    finish m changes) := by
  rw [work_eq, opening]
  cases settings.analysisOf with
  | ok analysis => simp only [bind_assoc, pure_bind]
  | error e => simp only [bind_assoc, pure_bind]

/-- In the course of normalizing a method, a stage starts on a workbench: the graph of the method
    has been built, and the stages before this one have run. -/
def Starts (settings : Settings) (m : Method) (s : Stage) (w : Workbench) : Prop :=
  ∃ (g : Graph) (before after : List Stage) (dead : Nat) (w₀ : Workbench)
      (changes : List (String × Nat)),
    Graph.build m.copy settings.terminators = .ok g
      ∧ (opening settings).run { graph := g, analysis := {}, method := m.name }
          = .ok (before ++ s :: after, dead) w₀
      ∧ (before.foldlM runStage [(unreachableKey, dead)]).run w₀ = .ok changes w

variable {settings : Settings} {m : Method} {s : Stage} {w w' : Workbench}

theorem opening_eq_ok {stages : List Stage} {dead : Nat} (hformed : w.graph.Formed)
    (hlinked : w.graph.Linked) (hrun : (opening settings).run w = .ok (stages, dead) w') :
    ∃ analysis, settings.analysisOf = .ok analysis ∧ Prepared settings stages
      ∧ ({ w with graph := w.graph.pruned, analysis } : Workbench).Alike w' := by
  obtain ⟨wa, hlog, hbuilt⟩ := Work.says_log (builtNote w.graph).logger (builtNote w.graph).level
    (builtNote w.graph).text w
  obtain ⟨wb, hprune, hpruned⟩ := Work.prune_run (w := wa) (hbuilt.graph ▸ hformed)
    (hbuilt.graph ▸ hlinked)
  rw [hbuilt.graph] at hprune hpruned
  unfold opening at hrun
  rw [Work.get_bind, Work.bind_of_ok hlog, Work.bind_of_ok hprune] at hrun
  cases hanalysis : settings.analysisOf with
  | error e =>
    rw [hanalysis] at hrun
    exact absurd hrun nofun
  | ok analysis =>
    rw [hanalysis] at hrun
    have hready : ({ w with graph := w.graph.pruned, analysis } : Workbench).Alike
        { wb with analysis } :=
      ⟨hpruned.graph, rfl, hpruned.facts.trans hbuilt.facts, hpruned.issues.trans hbuilt.issues⟩
    change (settings.activeKinds.mapM (prepare settings) >>= _ : Work (List Stage × Nat)).run
      { wb with analysis } = _ at hrun
    obtain ⟨stages', w₁, hprepare, hrun⟩ := Work.bind_eq_ok.mp hrun
    obtain ⟨heq, rfl⟩ := Work.pure_eq_ok.mp hrun
    cases heq
    obtain ⟨hstages, halike⟩ := Work.mapM_alike (R := fun k s => s.kind = k
      ∧ settings.stageOf k = .ok s) (fun _ _ _ _ => prepare_eq_ok) hprepare
    exact ⟨analysis, rfl, hstages, hready.trans halike⟩

/-- The stages before another one are not the last one. -/
theorem Prepared.early {before after : List Stage} (h : Prepared settings (before ++ s :: after)) :
    ∀ t ∈ before, t.kind ≠ .exceptionReconciler := by
  have hordered : (StageKind.all).Pairwise fun k _ => k ≠ .exceptionReconciler := by decide
  have hactive : settings.activeKinds.Sublist StageKind.all := List.filter_sublist
  have hkinds := hordered.sublist hactive
  rw [← h.kinds, List.map_append, List.pairwise_append] at hkinds
  intro t ht
  exact hkinds.2.2 t.kind (List.mem_map_of_mem ht) s.kind List.mem_cons_self

/-- A stage starts on a graph that is well-formed, and facts that are there are those of it. -/
theorem Starts.ready (huids : (m.code.map (·.uid)).Nodup) (h : Starts settings m s w) :
    w.graph.Formed ∧ w.graph.Linked ∧ w.Informed := by
  obtain ⟨g, before, after, dead, w₀, changes, hbuild, hopening, hbefore⟩ := h
  have hcopy := Method.copy_nodup huids
  obtain ⟨hformed, hlinked⟩ := Graph.build_formed hbuild hcopy
  obtain ⟨analysis, -, hstages, halike⟩ := opening_eq_ok hformed hlinked hopening
  -- The world plays no part in this, so any will do.
  let P : Platform := ⟨analysis.machine, default, g.terminators⟩
  have hsteady : Steady P g w₀ :=
    steady_start (Method.build_sound P hbuild hcopy) rfl halike.graph halike.facts
      (congrArg Analysis.machine halike.analysis.symm)
  obtain ⟨hsteady', -⟩ := runStages_steady hstages.early rfl hsteady hbefore
  exact ⟨hsteady'.sound.formed, hsteady'.sound.linked, hsteady'.informed⟩

end Pipeline

namespace Method

/-- Wherever the folder starts in the course of normalizing a method: whatever it has done so far,
    facts that it consults are those of the graph as it stands; and of each operation for which the
    constants directly in front of it in view give a result, they know that result. So the
    operation is folded, and the check against the facts turns nothing down. A run of the stage
    that succeeds has folded what is found in this way in all blocks. -/
theorem normalize_folds_proven (settings : Settings) (m : Method)
    (huids : (m.code.map (·.uid)).Nodup) {s : Stage} {w : Workbench}
    (hstarts : Pipeline.Starts settings m s w) :
    (∀ (events : List FoldEvent) edits w₁ facts w₂,
        (events.mapM Stage.foldEvent).run w = .ok edits w₁ → Work.facts.run w₁ = .ok facts w₂ →
        w₁.graph = w.graph
          ∧ (w₁.analysis.findings w₁.graph).facts = .ok facts ∧ (s.folder w).facts = facts)
      ∧ (∀ b ∈ w.graph.blocks, ∀ front ins back, b.code = front ++ ins :: back →
        ∀ op vs n, (s.folder w).Finds (front.foldl ((s.folder w).step b) {}) ins op vs n →
          (s.folder w).facts.knownInt? ins.uid = some n
            ∧ (s.folder w).arithmeticResult (front.foldl ((s.folder w).step b) {}) ins op
              = (some n, [.consult]))
      ∧ (s.kind = .constantFolder → ∀ n w', (Stage.run s).run w = .ok n w' →
        n = (s.folder w).count w.graph ∧ w'.graph = (s.folder w).folded w.graph) := by
  obtain ⟨hformed, hlinked, hinformed⟩ := hstarts.ready huids
  have hfacts := s.folder_facts hinformed
  refine ⟨fun events edits w₁ facts w₂ hevents hconsult =>
    s.facts_consulted hinformed hevents hconsult, ?_, ?_⟩
  · intro b hb front ins back hsplit op vs n hfinds
    refine ⟨?_, Folder.arithmeticResult_of_finds w.analysis hformed.uids_nodup rfl hfacts hb hsplit
      hfinds⟩
    rw [hfacts]
    exact w.analysis.knownInt?_of_finds hformed.uids_nodup rfl hb hsplit hfinds
  · intro hkind n w' hrun
    unfold Stage.run at hrun
    rw [hkind] at hrun
    obtain ⟨hcount, hgraph, -⟩ := Stage.foldConstants_eq_ok hformed hlinked hrun
    exact ⟨hcount, hgraph⟩

/-- The product of three and four, stored. -/
def product : Method where
  code :=
    [{ opcode := some .pushConst, operand := .value (.int 3), uid := 0 },
     { opcode := some .pushConst, operand := .value (.int 4), uid := 1 },
     { opcode := some .arith, operand := .operation .mul, uid := 2 },
     { opcode := some .storeLocal, operand := .value (.str "a"), uid := 3 },
     { opcode := some .other, uid := 4, mnemonic := .str "ret" }]

/-- Its one block. -/
def productGraph : Graph where
  blocks := [{ label := 0, code := product.code, isEntry := true }]
  terminators := Graph.usualTerminators
  fresh := 5

/-- Settings with which only constants are folded. -/
def onlyFolding : Settings := { stages := [{ name := .str StageKind.constantFolder.key }] }

/-- With these settings the folder is the only stage, and it runs. -/
theorem product_opens : ∃ s dead w w', (Pipeline.opening onlyFolding).run
      { graph := productGraph, analysis := {}, method := product.name } = .ok ([s], dead) w
    ∧ s.kind = .constantFolder ∧ (Stage.run s).run w = .ok 1 w' := by
  have hall : (Pipeline.opening onlyFolding >>= fun opened =>
        opened.1.mapM Stage.run >>= fun counts => pure (opened.1.map (·.kind), counts)).run'
      { graph := productGraph, analysis := {}, method := product.name }
        = some ([.constantFolder], [1]) := by
    decide +kernel
  unfold EStateM.run' at hall
  split at hall
  · rename_i w' hrun
    cases hall
    obtain ⟨⟨stages, dead⟩, w, hopening, hrun⟩ := Work.bind_eq_ok.mp hrun
    obtain ⟨counts, w₁, hcounts, hrun⟩ := Work.bind_eq_ok.mp hrun
    obtain ⟨hmade, rfl⟩ := Work.pure_eq_ok.mp hrun
    obtain ⟨hkinds, rfl⟩ := Prod.ext_iff.mp hmade
    obtain ⟨s, rfl⟩ := List.length_eq_one_iff.mp (List.length_map _ ▸ congrArg List.length hkinds)
    have hkind : s.kind = .constantFolder := (List.cons.inj hkinds).1
    rw [List.mapM_cons] at hcounts
    obtain ⟨count, w₂, hcount, hcounts⟩ := Work.bind_eq_ok.mp hcounts
    obtain ⟨rest, w₃, -, hcounts⟩ := Work.bind_eq_ok.mp hcounts
    obtain ⟨hone, -⟩ := Work.pure_eq_ok.mp hcounts
    rw [(List.cons.inj hone).1] at hcount
    exact ⟨s, dead, w, w₂, hopening, hkind, hcount⟩
  · cases hall

/-- The product is found, and the stage folds just that. -/
theorem product_folds_proven : ∃ s w, Pipeline.Starts onlyFolding product s w
    ∧ (∃ b ∈ w.graph.blocks, ∃ front ins back, b.code = front ++ ins :: back
      ∧ (s.folder w).facts.knownInt? ins.uid = some 12
      ∧ (s.folder w).arithmeticResult (front.foldl ((s.folder w).step b) {}) ins .mul
        = (some 12, [.consult]))
    ∧ ∃ w', (Stage.run s).run w = .ok 1 w' ∧ (s.folder w).count w.graph = 1
      ∧ w'.graph = (s.folder w).folded w.graph := by
  have huids : (product.code.map (·.uid)).Nodup := by decide
  have hbuild : Graph.build product.copy onlyFolding.terminators = .ok productGraph := rfl
  obtain ⟨s, dead, w, w', hopening, hkind, hrun⟩ := product_opens
  have hstarts : Pipeline.Starts onlyFolding product s w :=
    ⟨productGraph, [], [], dead, w, _, hbuild, hopening, rfl⟩
  obtain ⟨hformed, hlinked⟩ := Graph.build_formed hbuild huids
  obtain ⟨analysis, hanalysis, -, halike⟩ := Pipeline.opening_eq_ok hformed hlinked hopening
  have hgraph : w.graph = productGraph := by
    have hlive : productGraph.unreachable.isEmpty = true := by decide +kernel
    have hpruned : w.graph = productGraph.pruned := halike.graph
    rw [hpruned, Graph.pruned, if_pos hlive]
  have hmachine : analysis.machine.width = .whole .four ∧ analysis.machine.policy = .wrap := by
    have hsettings : (onlyFolding.machine.toOption.map fun m => (m.width, m.policy))
        = some (.whole .four, .wrap) := by decide +kernel
    rw [Pipeline.machine_of_analysisOf hanalysis] at hsettings
    exact Prod.ext_iff.mp (Option.some.inj hsettings)
  have hfinds : (s.folder w).Finds
      ((product.code.take 2).foldl ((s.folder w).step productGraph.blocks[0]) {}) product.code[2]
      .mul [.int 3, .int 4] 12 := by
    refine ⟨rfl, rfl, rfl, Nat.le_refl 2, ?_⟩
    rw [show (s.folder w).machine = analysis.machine from congrArg (·.machine) halike.analysis,
      hmachine.1, hmachine.2]
    rfl
  have hb : productGraph.blocks[0] ∈ w.graph.blocks := by
    rw [hgraph]
    exact List.mem_singleton_self _
  obtain ⟨-, hfold, hruns⟩ := normalize_folds_proven onlyFolding product huids hstarts
  obtain ⟨hcount, hfolded⟩ := hruns hkind 1 w' hrun
  refine ⟨s, w, hstarts, ⟨_, hb, product.code.take 2, _, product.code.drop 3, rfl, ?_⟩, w', hrun,
    hcount.symm, hfolded⟩
  exact hfold _ hb (product.code.take 2) _ (product.code.drop 3) rfl _ _ _ hfinds

end Method

end Untangle
