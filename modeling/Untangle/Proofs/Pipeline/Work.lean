/-
  Untangle.Proofs.Pipeline.Work

  The work on one method from the first pruning to the method that is written out
  (`Pipeline.work_rewritten`). The stages come in one order, with the one that brings regions
  and exits up to date at the end. When a method is rewritten at all, it is written out from a
  sound graph with all blocks in reach, and no defect was found on the way.
-/
import Untangle.Proofs.Stage.Quiet
import Untangle.Proofs.Stage.Run
import Untangle.Proofs.Validate

namespace Untangle

/-- All regions of a method are moved to what is left of the blocks of a graph. -/
def Graph.RegionsMoved (g : Graph) (m : Method) : Prop :=
  Reconcile.regionDefects g = []
    ∧ m.regions = g.spans.map fun s => ((Reconcile.moved? g s).getD s).region

/-- The method that a graph is written out as. Branches are pointed at live instructions;
    regions stay as they are, or all are moved to what is left of their blocks. -/
structure Graph.Written (g : Graph) (m : Method) : Prop where
  code : m.code = g.code.map g.relinkInstruction
  regions : m.regions = g.spans.map (·.region) ∨ g.RegionsMoved m
  valid : m.Valid

namespace Work

variable {w w' : Workbench}

/-- Actions one for each item that only leave messages. -/
theorem mapM_alike {α β : Type} {f : α → Work β} {R : α → β → Prop}
    (hf : ∀ a w b w', (f a).run w = .ok b w' → R a b ∧ w.Alike w') {items : List α}
    {results : List β} (h : (items.mapM f).run w = .ok results w') :
    List.Forall₂ R items results ∧ w.Alike w' := by
  induction items generalizing w results with
  | nil =>
    obtain ⟨rfl, rfl⟩ := pure_eq_ok.mp h
    exact ⟨.nil, .refl w⟩
  | cons a items ih =>
    rw [List.mapM_cons] at h
    obtain ⟨b, w₁, hfirst, h⟩ := bind_eq_ok.mp h
    obtain ⟨bs, w₂, hothers, h⟩ := bind_eq_ok.mp h
    obtain ⟨rfl, rfl⟩ := pure_eq_ok.mp h
    obtain ⟨hR, halike⟩ := hf a w b w₁ hfirst
    obtain ⟨hall, halike'⟩ := ih hothers
    exact ⟨.cons hR hall, halike.trans halike'⟩

/-- Actions that each only leave messages do so together. -/
theorem says_mapM {α β : Type} {f : α → Work β} {items : List α}
    (hf : ∀ a ∈ items, ∃ b, Says (f a) b) : ∃ results, Says (items.mapM f) results := by
  induction items with
  | nil => exact ⟨[], says_pure _⟩
  | cons a items ih =>
    obtain ⟨b, hb⟩ := hf a List.mem_cons_self
    obtain ⟨bs, hbs⟩ := ih fun a' ha' => hf a' (List.mem_cons_of_mem _ ha')
    rw [List.mapM_cons]
    exact ⟨b :: bs, hb.bind (hbs.bind (says_pure _))⟩

/-- A graph is written out with its branches pointed at live instructions. -/
theorem reconstruct_eq_ok {m : Method} (h : reconstruct.run w = .ok m w') :
    m = w.graph.relinked.toMethod := by
  obtain ⟨_, w₁, hrelink, h⟩ := bind_eq_ok.mp h
  obtain ⟨rfl, -⟩ := pure_eq_ok.mp h
  rw [relink_eq_ok hrelink]

/-- A method is committed when it has no defects. -/
theorem commit_eq_ok {m : Method} (h : (commit []).run w = .ok m w') :
    m = w.graph.relinked.toMethod ∧ m.Valid := by
  obtain ⟨m', w₁, hmade, h⟩ := bind_eq_ok.mp h
  cases hvalid : m'.validate with
  | error e =>
    rw [hvalid] at h
    obtain ⟨_, _, hthrow, -⟩ := bind_eq_ok.mp h
    exact absurd hthrow throw_ne_ok
  | ok found =>
    rw [hvalid] at h
    obtain ⟨found', w₂, hfound, h⟩ := bind_eq_ok.mp h
    obtain ⟨rfl, rfl⟩ := pure_eq_ok.mp hfound
    dsimp only at h
    rw [List.nil_append] at h
    split at h
    · obtain ⟨_, _, -, h⟩ := bind_eq_ok.mp h
      exact absurd h throw_ne_ok
    · rename_i hnone
      obtain ⟨rfl, -⟩ := pure_eq_ok.mp h
      rw [Bool.not_eq_true', Bool.not_eq_false, List.isEmpty_iff] at hnone
      rw [hnone] at hvalid
      exact ⟨reconstruct_eq_ok hmade, Method.validate_eq_nil.mp hvalid⟩

end Work

namespace Pipeline

open Reconcile

variable {P : Platform} {g₀ : Graph} {w w' : Workbench} {settings : Settings}

/-! ## The stages -/

/-- A stage that is made ready has the kind that was asked for. -/
theorem prepare_eq_ok {kind : StageKind} {s : Stage}
    (h : (prepare settings kind).run w = .ok s w') :
    (s.kind = kind ∧ settings.stageOf kind = .ok s) ∧ w.Alike w' := by
  unfold prepare at h
  cases hstage : settings.stageOf kind with
  | error e => rw [hstage] at h; exact absurd h Work.throw_ne_ok
  | ok s' =>
    rw [hstage] at h
    obtain ⟨_, w₁, hwarn, h⟩ := Work.bind_eq_ok.mp h
    obtain ⟨rfl, rfl⟩ := Work.pure_eq_ok.mp h
    refine ⟨⟨?_, rfl⟩, ((Work.says_forM fun _ _ => Work.says_log _ _ _).alike hwarn).2⟩
    unfold Settings.stageOf Settings.configured at hstage
    split at hstage
    · cases hstage; rfl
    · obtain ⟨given, -, hstage⟩ := bind_eq_ok.mp hstage
      cases hstage
      rfl

theorem prepare_says {kind : StageKind} {s : Stage} (h : settings.stageOf kind = .ok s) :
    Work.Says (prepare settings kind) s := by
  unfold prepare
  rw [h]
  exact (Work.says_forM fun _ _ => Work.says_log _ _ _).bind (Work.says_pure s)

/-- The last stage comes last, if it is to run. -/
theorem activeKinds_eq (settings : Settings) :
    ∃ front last, settings.activeKinds = front ++ last
      ∧ front.Sublist [.switchResolver, .junkEliminator, .constantFolder]
      ∧ (last = [] ∨ last = [.exceptionReconciler]) := by
  let early : List StageKind := [.switchResolver, .junkEliminator, .constantFolder]
  refine ⟨early.filter fun k => (settings.isActive k.key).truthy, _,
    List.filter_append early [.exceptionReconciler], List.filter_sublist, ?_⟩
  rw [List.filter_cons]
  split
  · exact Or.inr rfl
  · exact Or.inl rfl

/-- The last stage brings regions and exits up to date, and notes what it cannot keep. -/
theorem runStage_reconciler {s : Stage} (hkind : s.kind = .exceptionReconciler)
    (h : w.graph.Formed) {changes changes' : List (String × Nat)}
    (hrun : (runStage changes s).run w = .ok changes' w') :
    w'.graph = reconciled w.graph ∧ w'.analysis = w.analysis
      ∧ w'.issues = w.issues ++ regionDefects w.graph ++ exitDefects (regionsMoved w.graph)
      ∧ changes' = addChanges changes s.kind.key (changeCount w.graph) := by
  obtain ⟨n, w₁, changes₁, hfirst, rfl, hrest⟩ := runStage_eq_ok hrun
  rw [Stage.run, hkind] at hfirst
  obtain ⟨w₁', hfirst', halike⟩ := Stage.reconcile_run h
  change Stage.reconcile.run w = _ at hfirst
  rw [hfirst] at hfirst'
  cases hfirst'
  rcases hrest with ⟨-, rfl, rfl⟩ | ⟨-, w₂, halike₂, ⟨hs, -⟩ | ⟨-, rfl, rfl⟩⟩
  · exact ⟨halike.graph, halike.analysis, halike.issues, rfl⟩
  · rw [hkind] at hs
    cases hs
  · exact ⟨halike₂.graph.trans halike.graph, halike₂.analysis.trans halike.analysis,
      halike₂.issues.trans halike.issues, rfl⟩

/-- Counting loops gives the number of backward branches, and changes nothing. -/
theorem countLoops_eq_ok {n : Nat} (h : countLoops.run w = .ok n w') :
    n = w.graph.backEdges.length ∧ w.Alike w' := by
  unfold countLoops at h
  rw [Work.get_bind] at h
  obtain ⟨_, w₁, hcheck, h⟩ := Work.bind_eq_ok.mp h
  obtain ⟨-, rfl⟩ := Work.check_eq_ok.mp hcheck
  dsimp only at h
  split at h
  · obtain ⟨_, w₂, hlog, h⟩ := Work.bind_eq_ok.mp h
    obtain ⟨rfl, rfl⟩ := Work.pure_eq_ok.mp h
    exact ⟨rfl, ((Work.says_log _ _ _).alike hlog).2⟩
  · obtain ⟨rfl, rfl⟩ := Work.pure_eq_ok.mp h
    exact ⟨rfl, .refl w⟩

/-! ## The method that is written out -/

/-- A sound graph is written out as it stands, or with regions and exits up to date. -/
theorem written {g : Graph} (h : g.Formed) {g' : Graph} {p : Prop}
    (hg' : ¬ p ∧ g' = g ∨ g' = reconciled g ∧ regionDefects g = []) {m : Method}
    (hm : m = g'.relinked.toMethod) (hvalid : m.Valid) :
    g.Written m ∧ (p → g.RegionsMoved m) := by
  subst hm
  rcases hg' with ⟨hnot, rfl⟩ | ⟨rfl, hdefects⟩
  · refine ⟨⟨?_, Or.inl rfl, hvalid⟩, fun hp => absurd hp hnot⟩
    show g'.relinked.code = _
    rw [Graph.relinked_eq fun ins hins => h.checkTargets hins, Graph.mapCode_code]
  · have hmoved : g.RegionsMoved (reconciled g).relinked.toMethod := by
      refine ⟨hdefects, ?_⟩
      show (g.spans.map fun s => (moved? g s).getD s).map (·.region) = _
      rw [List.map_map]
      rfl
    exact ⟨⟨(exitsMoved_relinked h _).2, Or.inr hmoved, hvalid⟩, fun _ => hmoved⟩

/-! ## The work as a whole -/

/-- The work once the stages have run. -/
def finish (m : Method) (changes : List (String × Nat)) : Work Outcome := do
  let loops ← countLoops
  let issues := (← get).issues
  if !issues.isEmpty then throw (.inconsistent issues)
  let counts := changes.map fun (key, n) => (key, (n : Int))
  if changes.all fun (_, n) => n == 0 then
    return { name := m.name, body := m, reason := "no applicable patterns",
             loopsDetected := loops, changes := counts }
  let body ← Work.commit []
  let resolved := (changes.lookup StageKind.switchResolver.key).getD 0
  Work.log "CFEX.engine" Level.info
    ("Rewrote " ++ m.name.display ++ ": " ++ toString m.code.length ++ " -> "
      ++ toString body.code.length ++ " instruction(s), " ++ toString resolved
      ++ " dispatch site(s) resolved")
  return { name := m.name, body, rewritten := true, reason := "rewritten",
           switchesResolved := resolved, loopsDetected := loops, changes := counts }

/-- Once the stages have run without a defect, loops are counted on the graph as it is then.
    Nothing comes of the stages, or a method that is written out with the dispatches that were
    counted. -/
theorem finish_eq_ok {m : Method} {changes : List (String × Nat)} {o : Outcome}
    (hrun : (finish m changes).run w = .ok o w') :
    w.issues = [] ∧ o.changes = changes.map (fun p => (p.1, (p.2 : Int)))
      ∧ o.loopsDetected = w.graph.backEdges.length
      ∧ ((changes.all fun p => p.2 == 0) = true ∧ o.rewritten = false ∧ o.body = m
          ∧ o.reason = "no applicable patterns" ∧ o.reverted = false ∧ o.issues = []
        ∨ (changes.all fun p => p.2 == 0) = false ∧ o.rewritten = true
          ∧ o.switchesResolved = (changes.lookup StageKind.switchResolver.key).getD 0
          ∧ o.body = w.graph.relinked.toMethod ∧ o.body.Valid) := by
  obtain ⟨loops, w₁, hloops, hrun⟩ := Work.bind_eq_ok.mp hrun
  obtain ⟨rfl, hcounted⟩ := countLoops_eq_ok hloops
  rw [Work.get_bind] at hrun
  by_cases hissues : w₁.issues = []
  · rw [hcounted.issues] at hissues
    dsimp only at hrun
    rw [hcounted.issues, hissues, if_neg (by decide)] at hrun
    cases hall : changes.all fun p => p.2 == 0 with
    | true =>
      rw [if_pos hall] at hrun
      obtain ⟨rfl, -⟩ := Work.pure_eq_ok.mp hrun
      exact ⟨hissues, rfl, rfl, Or.inl ⟨rfl, rfl, rfl, rfl, rfl, rfl⟩⟩
    | false =>
      rw [if_neg (by rw [hall]; decide)] at hrun
      obtain ⟨body, w₂, hcommit, hrun⟩ := Work.bind_eq_ok.mp hrun
      obtain ⟨_, w₃, -, hrun⟩ := Work.bind_eq_ok.mp hrun
      obtain ⟨rfl, -⟩ := Work.pure_eq_ok.mp hrun
      obtain ⟨hbody, hvalid⟩ := Work.commit_eq_ok hcommit
      rw [hcounted.graph] at hbody
      exact ⟨hissues, rfl, rfl, Or.inr ⟨rfl, rfl, rfl, hbody, hvalid⟩⟩
  · -- With a defect the work ends at a fault.
    dsimp only at hrun
    rw [if_pos (by simpa using hissues)] at hrun
    obtain ⟨_, _, hthrow, -⟩ := Work.bind_eq_ok.mp hrun
    exact absurd hthrow Work.throw_ne_ok

/-- The work is what comes before the stages, the stages, and the end. -/
theorem work_eq (settings : Settings) (m : Method) : work settings m = (do
    let built := builtNote (← get).graph
    Work.log built.logger built.level built.text
    let dead ← Work.prune
    let analysis ← match settings.analysisOf with
      | .ok a => pure a
      | .error e => throw (.misuse e)
    modify fun w => { w with analysis }
    let stages ← settings.activeKinds.mapM fun kind => prepare settings kind
    let changes ← stages.foldlM runStage [(unreachableKey, dead.length)]
    finish m changes) := rfl

/-- An analysis, and each stage that is to run, can be made ready as the settings describe them. -/
structure Serves (settings : Settings) : Prop where
  analysis : ∃ analysis, settings.analysisOf = .ok analysis
  stages : ∀ kind ∈ settings.activeKinds, ∃ stage, settings.stageOf kind = .ok stage

/-- The stages that are to run, each with its own options. -/
def Prepared (settings : Settings) (stages : List Stage) : Prop :=
  List.Forall₂ (fun k s => s.kind = k ∧ settings.stageOf k = .ok s) settings.activeKinds stages

theorem Prepared.kinds {stages : List Stage} (h : Prepared settings stages) :
    stages.map (·.kind) = settings.activeKinds := by
  have hkinds : List.Forall₂ (· = ·) settings.activeKinds (stages.map (·.kind)) :=
    List.forall₂_map_right_iff.mpr (h.imp fun _ _ hs => hs.1.symm)
  rw [List.forall₂_eq_eq_eq] at hkinds
  exact hkinds.symm

theorem Prepared.serves {stages : List Stage} {analysis : Analysis} (h : Prepared settings stages)
    (hanalysis : settings.analysisOf = .ok analysis) : Serves settings := by
  refine ⟨⟨analysis, hanalysis⟩, fun kind hkind => ?_⟩
  obtain ⟨index, hindex⟩ := List.mem_iff_getElem?.mp hkind
  obtain ⟨stage, -, -, hstage⟩ := forall₂_getElem? h hindex
  exact ⟨stage, hstage⟩

/-- The settings leave no choice. -/
theorem Prepared.unique {stages stages' : List Stage} (h : Prepared settings stages)
    (h' : Prepared settings stages') : stages' = stages := by
  unfold Prepared at h h'
  generalize settings.activeKinds = kinds at h h'
  induction h generalizing stages' with
  | nil =>
    cases h'
    rfl
  | cons hs _ ih =>
    cases h' with
    | cons hs' hrest =>
      rw [ih hrest, Except.ok.inj (hs'.2.symm.trans hs.2)]

/-- The work stops where the settings do not serve. Otherwise it is the stages on the pruned graph,
    and the end. -/
theorem work_run (settings : Settings) (m : Method) (hformed : w.graph.Formed)
    (hlinked : w.graph.Linked) :
    (∃ e w', (work settings m).run w = .error (.misuse e) w' ∧ w'.issues = w.issues
      ∧ ¬ Serves settings)
    ∨ ∃ (analysis : Analysis) (stages : List Stage) (w₁ : Workbench),
      settings.analysisOf = .ok analysis ∧ Prepared settings stages
      ∧ ({ w with graph := w.graph.pruned, analysis } : Workbench).Alike w₁
      ∧ (work settings m).run w
        = (stages.foldlM runStage [(unreachableKey, w.graph.unreachable.length)]
            >>= finish m).run w₁ := by
  obtain ⟨wa, hlog, hbuilt⟩ := Work.says_log (builtNote w.graph).logger (builtNote w.graph).level
    (builtNote w.graph).text w
  obtain ⟨wb, hprune, hpruned⟩ := Work.prune_run (w := wa) (hbuilt.graph ▸ hformed)
    (hbuilt.graph ▸ hlinked)
  rw [hbuilt.graph] at hprune hpruned
  have hissues : wb.issues = w.issues := hpruned.issues.trans hbuilt.issues
  rw [work_eq, Work.get_bind, Work.bind_of_ok hlog, Work.bind_of_ok hprune]
  cases hanalysis : settings.analysisOf with
  | error e =>
    refine Or.inl ⟨e, wb, rfl, hissues, fun hserves => ?_⟩
    obtain ⟨_, hok⟩ := hserves.analysis
    rw [hanalysis] at hok
    cases hok
  | ok analysis =>
    have hready : ({ w with graph := w.graph.pruned, analysis } : Workbench).Alike
        { wb with analysis } := ⟨hpruned.graph, rfl, hpruned.facts.trans hbuilt.facts, hissues⟩
    show (∃ e w', (settings.activeKinds.mapM (prepare settings) >>= _ : Work Outcome).run
      { wb with analysis } = .error (.misuse e) w' ∧ _ ∧ _) ∨ _
    cases hprepare : (settings.activeKinds.mapM (prepare settings)).run { wb with analysis } with
    | error f w₁ =>
      obtain ⟨hkept, e, rfl⟩ := (Work.quiet_mapM (quiet_prepare settings) _).error hprepare
      refine Or.inl ⟨e, w₁, Work.bind_of_error hprepare, hkept.trans hissues, fun hserves => ?_⟩
      obtain ⟨stages, hsays⟩ := Work.says_mapM fun kind hkind =>
        (hserves.stages kind hkind).imp fun stage hstage => prepare_says hstage
      obtain ⟨_, hok, -⟩ := hsays { wb with analysis }
      rw [hprepare] at hok
      cases hok
    | ok stages w₁ =>
      obtain ⟨hstages, halike⟩ := Work.mapM_alike (R := fun k s => s.kind = k
        ∧ settings.stageOf k = .ok s) (fun _ _ _ _ => prepare_eq_ok) hprepare
      refine Or.inr ⟨analysis, stages, w₁, rfl, hstages, hready.trans halike, ?_⟩
      refine (Work.bind_of_ok hprepare).trans ?_
      rw [List.length_map]

/-- The work up to the point where it is known whether anything has changed. -/
structure Worked (settings : Settings) (w : Workbench) (changes : List (String × Nat))
    (w' : Workbench) : Prop where
  /-- The stages run with their own options, on the graph as it is after pruning. -/
  through : ∃ analysis stages w₁, settings.analysisOf = .ok analysis
    ∧ List.Forall₂ (fun k s => s.kind = k ∧ settings.stageOf k = .ok s) settings.activeKinds stages
    ∧ ({ w with graph := w.graph.pruned, analysis } : Workbench).Alike w₁
    ∧ (stages.foldlM runStage [(unreachableKey, w.graph.unreachable.length)]).run w₁
        = .ok changes w'
  issues : w'.issues = []

/-- Work that succeeds comes to its end without a defect. -/
theorem work_finished {m : Method} {o : Outcome} (hformed : w.graph.Formed)
    (hlinked : w.graph.Linked) (hrun : (work settings m).run w = .ok o w') :
    ∃ changes w₂, Worked settings w changes w₂ ∧ (finish m changes).run w₂ = .ok o w' := by
  rcases work_run settings m hformed hlinked with
    ⟨e, _, hstuck, -⟩ | ⟨analysis, stages, w₁, hanalysis, hstages, halike, hwork⟩
  · rw [hstuck] at hrun
    cases hrun
  · rw [hwork] at hrun
    obtain ⟨changes, w₂, hfold, hrun⟩ := Work.bind_eq_ok.mp hrun
    exact ⟨changes, w₂, ⟨⟨analysis, stages, w₁, hanalysis, hstages, halike, hfold⟩,
      (finish_eq_ok hrun).1⟩, hrun⟩

/-- What comes of the work on a graph: nothing, or a method that is written out. -/
theorem work_eq_ok {m : Method} {o : Outcome} (hformed : w.graph.Formed)
    (hlinked : w.graph.Linked) (hrun : (work settings m).run w = .ok o w') :
    ∃ changes w₂, Worked settings w changes w₂
      ∧ ((changes.all fun p => p.2 == 0) = true ∧ o.rewritten = false ∧ o.body = m
          ∧ o.changes = changes.map (fun p => (p.1, (p.2 : Int)))
          ∧ o.reason = "no applicable patterns" ∧ o.reverted = false ∧ o.issues = []
        ∨ (changes.all fun p => p.2 == 0) = false ∧ o.rewritten = true
          ∧ o.changes = changes.map (fun p => (p.1, (p.2 : Int)))
          ∧ o.body = w₂.graph.relinked.toMethod ∧ o.body.Valid) := by
  obtain ⟨changes, w₂, hworked, hfinish⟩ := work_finished hformed hlinked hrun
  obtain ⟨-, hchanges, -, hdone⟩ := finish_eq_ok hfinish
  refine ⟨changes, w₂, hworked, ?_⟩
  rcases hdone with ⟨hall, hnot, hbody, hdone⟩ | ⟨hall, hrewritten, -, hdone⟩
  · exact Or.inl ⟨hall, hnot, hbody, hchanges, hdone⟩
  · exact Or.inr ⟨hall, hrewritten, hchanges, hdone⟩

/-- The machine of an analysis is that of the settings. -/
theorem machine_of_analysisOf {analysis : Analysis} (h : settings.analysisOf = .ok analysis) :
    settings.machine = .ok analysis.machine := by
  unfold Settings.analysisOf at h
  split at h
  · split at h
    · obtain ⟨machine, hmachine, h⟩ := bind_eq_ok.mp h
      cases h
      exact hmachine
    · cases h
  · cases h

/-- The stages start on a graph that has been pruned. -/
theorem steady_start {g₀ : Graph} (hsound : g₀.Sound P g₀) (hP : P.terminators = g₀.terminators)
    (hgraph : w.graph = g₀.pruned) (hfacts : w.facts = none)
    (hmachine : P.machine = w.analysis.machine) : Steady P g₀ w := by
  obtain ⟨hpruned, hreached⟩ := hsound.pruned hP
  exact ⟨⟨hgraph ▸ hpruned, Workbench.informed_of_none hfacts, hmachine⟩, hgraph ▸ hreached⟩

/-- The last stage is none of those before it. -/
theorem early_kind {early : List Stage}
    (h : (early.map (·.kind)).Sublist [.switchResolver, .junkEliminator, .constantFolder]) :
    ∀ s ∈ early, s.kind ≠ .exceptionReconciler := fun s hs heq =>
  absurd (heq ▸ h.subset (List.mem_map_of_mem hs)) (by decide)

/-- The stages up to the last one start on the pruned graph, and leave a sound graph of which all
    is in reach. The last stage, if it is to run, has at most moved regions and exits of that. -/
theorem Worked.split {changes : List (String × Nat)} (hworked : Worked settings w changes w')
    (hsound : w.graph.Sound P w.graph) (hfacts : w.facts = none)
    (hmachine : settings.machine = .ok P.machine) (hP : P.terminators = w.graph.terminators) :
    ∃ (early : List Stage) (w₁ w₂ : Workbench) (changes₂ : List (String × Nat)),
      (early.map (·.kind)).Sublist [.switchResolver, .junkEliminator, .constantFolder]
      ∧ w₁.graph = w.graph.pruned ∧ Steady P w.graph w₁
      ∧ (early.foldlM runStage [(unreachableKey, w.graph.unreachable.length)]).run w₁
          = .ok changes₂ w₂
      ∧ Steady P w.graph w₂
      ∧ (.exceptionReconciler ∉ settings.activeKinds ∧ w'.graph = w₂.graph ∧ changes = changes₂
        ∨ w'.graph = reconciled w₂.graph ∧ regionDefects w₂.graph = []
          ∧ changes = addChanges changes₂ StageKind.exceptionReconciler.key
              (changeCount w₂.graph)) := by
  obtain ⟨⟨analysis, stages, w₁, hanalysis, hstages, halike, hrun⟩, hissues⟩ := hworked
  have hsame : P.machine = analysis.machine :=
    Except.ok.inj (hmachine.symm.trans (machine_of_analysisOf hanalysis))
  have hsteady : Steady P w.graph w₁ :=
    steady_start hsound hP halike.graph (halike.facts.trans hfacts)
      (hsame.trans (congrArg Analysis.machine halike.analysis.symm))
  obtain ⟨front, last, hkinds, hfront, hlast⟩ := activeKinds_eq settings
  obtain ⟨early, late, rfl, hearly, hlate⟩ :=
    List.map_eq_append_iff.mp ((Prepared.kinds hstages).trans hkinds)
  rw [List.foldlM_append] at hrun
  obtain ⟨changes₂, w₂, hrun₁, hrun₂⟩ := Work.bind_eq_ok.mp hrun
  have hsteady₂ := (runStages_steady (early_kind (hearly ▸ hfront)) hP hsteady hrun₁).1
  refine ⟨early, w₁, w₂, changes₂, hearly ▸ hfront, halike.graph, hsteady, hrun₁, hsteady₂, ?_⟩
  rcases hlast with rfl | rfl
  · rw [List.map_eq_nil_iff] at hlate
    subst hlate
    obtain ⟨rfl, rfl⟩ := Work.pure_eq_ok.mp hrun₂
    rw [hkinds, List.append_nil]
    exact Or.inl ⟨fun hactive => absurd (hfront.subset hactive) (by decide), rfl, rfl⟩
  · obtain ⟨s, rfl, hs⟩ := List.map_eq_singleton_iff.mp hlate
    rw [List.foldlM_cons] at hrun₂
    obtain ⟨changes₃, w₃, hstage, hrun₃⟩ := Work.bind_eq_ok.mp hrun₂
    obtain ⟨rfl, rfl⟩ := Work.pure_eq_ok.mp hrun₃
    obtain ⟨hgraph, -, hflagged, hchanges⟩ := runStage_reconciler hs hsteady₂.sound.formed hstage
    rw [hissues] at hflagged
    have hnone := (List.append_eq_nil_iff.mp hflagged.symm).1
    exact Or.inr ⟨hgraph, (List.append_eq_nil_iff.mp hnone).2, hs ▸ hchanges⟩

/-- After the stages the graph is sound and all of it is in reach; the last stage has at most
    moved regions and exits. -/
theorem Worked.steady {changes : List (String × Nat)} (hworked : Worked settings w changes w')
    (hsound : w.graph.Sound P w.graph) (hfacts : w.facts = none)
    (hmachine : settings.machine = .ok P.machine) (hP : P.terminators = w.graph.terminators) :
    ∃ w₁, Steady P w.graph w₁
      ∧ (.exceptionReconciler ∉ settings.activeKinds ∧ w'.graph = w₁.graph
        ∨ w'.graph = reconciled w₁.graph ∧ regionDefects w₁.graph = []) := by
  obtain ⟨_, _, w₂, _, -, -, -, -, hsteady, hlast⟩ := hworked.split hsound hfacts hmachine hP
  refine ⟨w₂, hsteady, ?_⟩
  rcases hlast with ⟨hidle, hgraph, -⟩ | ⟨hgraph, hdefects, -⟩
  · exact Or.inl ⟨hidle, hgraph⟩
  · exact Or.inr ⟨hgraph, hdefects⟩

/-- A method that is rewritten is written out from a sound graph with all blocks in reach. -/
theorem work_rewritten {m : Method} {o : Outcome} (hsound : w.graph.Sound P w.graph)
    (hfacts : w.facts = none) (hmachine : settings.machine = .ok P.machine)
    (hP : P.terminators = w.graph.terminators) (hrun : (work settings m).run w = .ok o w')
    (hrewritten : o.rewritten = true) :
    ∃ g, w.graph.Sound P g ∧ g.AllReached ∧ g.Written o.body
      ∧ (.exceptionReconciler ∈ settings.activeKinds → g.RegionsMoved o.body) := by
  obtain ⟨changes, w₂, hworked, ⟨-, hnot, -⟩ | ⟨-, -, -, hbody, hvalid⟩⟩ :=
    work_eq_ok hsound.formed hsound.linked hrun
  · rw [hrewritten] at hnot
    cases hnot
  · obtain ⟨w₁, hsteady, hgraph⟩ := hworked.steady hsound hfacts hmachine hP
    exact ⟨w₁.graph, hsteady.sound, hsteady.reached,
      written hsteady.sound.formed hgraph hbody hvalid⟩

end Pipeline

end Untangle
