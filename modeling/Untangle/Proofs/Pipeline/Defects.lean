/-
  Untangle.Proofs.Pipeline.Defects

  Defects that the work on a method never meets (`Method.work_keeps_bounds`). No exit is noted as
  too far from its region. If the last stage notes nothing, every region lies between instructions
  that are left of its blocks, and the checks of the method that is written out find no defect of a
  region.
-/
import Untangle.Proofs.Pipeline.Exits
import Untangle.Proofs.Stage.Quiet

namespace Untangle

namespace Graph

open Reconcile

variable {P : Platform} {g₀ g : Graph}

/-- Values that name the first and the last instruction of blocks in a row stand in order. -/
theorem Formed.bounds_ordered (h : g.Formed) {labels : List Int} (hrun : labels <:+: g.labels)
    {first last : Int} (hbounds : g.spanBounds? labels = some (first, last)) {start finish : Value}
    (hstart : start.wholeNumber? = some first) (hfinish : finish.wholeNumber? = some last) :
    ∃ a b, Method.placeOf? g.code start = some a ∧ Method.placeOf? g.code finish = some b
      ∧ a ≤ b := by
  obtain ⟨before, run, after, houtline, -, hfirst, hlast⟩ :=
    exists_run_of_bounds h hrun hbounds
  have hsplit : g.code = Outline.code before ++ Outline.code run ++ Outline.code after := by
    rw [← Outline.code_outline, houtline, Outline.code_append, Outline.code_append]
  obtain ⟨ha, hb⟩ := Method.place?_run h.uids_nodup hsplit hfirst hlast
  have hnamed {v : Value} {u : Int} {q : Nat} (hv : v.wholeNumber? = some u)
      (hq : Method.place? g.code u = some q) : Method.placeOf? g.code v = some q := by
    rw [Method.placeOf?, hv]
    exact hq
  exact ⟨_, _, hnamed hstart ha, hnamed hfinish hb, Nat.le_add_right _ _⟩

/-- Where no range is empty, the boundaries of regions stand in order once they are moved. -/
theorem Sound.regions_ordered (h : g₀.Sound P g) (h₀ : g₀.Formed)
    (hranged : ∀ s ∈ g₀.spans, s.tryBlocks <:+: g₀.labels ∧ s.handlerBlocks <:+: g₀.labels)
    (hnone : regionDefects g = []) :
    ∀ r ∈ (reconciled g).relinked.toMethod.regions,
      ∃ a b c d, RangeOf (reconciled g).relinked.toMethod.code r a b c d := by
  have hformed := h.formed
  obtain ⟨-, -, T, f, htraced⟩ := h
  intro r hr
  have hcode : (reconciled g).relinked.toMethod.code = g.code.map g.relinkInstruction :=
    (exitsMoved_relinked hformed _).2
  have hregions : (reconciled g).relinked.toMethod.regions
      = g.spans.map fun s => ((moved? g s).getD s).region := by
    show (g.spans.map fun s => (moved? g s).getD s).map (·.region) = _
    rw [List.map_map]
    rfl
  rw [hregions] at hr
  obtain ⟨left, hleft, rfl⟩ := List.mem_map.mp hr
  obtain ⟨index, hindex⟩ := List.mem_iff_getElem?.mp hleft
  obtain ⟨htries, hhandlers⟩ := bounds_of_regionIssues
    (List.flatMap_eq_nil_iff.mp hnone (left, index) (List.mk_mem_zipIdx_iff_getElem?.mpr hindex))
  obtain ⟨tries, htries⟩ := Option.isSome_iff_exists.mp htries
  obtain ⟨handlers, hhandlers⟩ := Option.isSome_iff_exists.mp hhandlers
  obtain ⟨⟨hts, hte⟩, hhs, hhe⟩ := moved_boundaries htries hhandlers rfl
  rw [htraced.spans] at hleft
  obtain ⟨s, hs, rfl⟩ := List.mem_map.mp hleft
  obtain ⟨hrunTries, hrunHandlers⟩ := hranged s hs
  obtain ⟨a, b, ha, hb, hab⟩ :=
    hformed.bounds_ordered (htraced.run_left h₀ hrunTries) htries hts hte
  obtain ⟨c, d, hc, hd, hcd⟩ :=
    hformed.bounds_ordered (htraced.run_left h₀ hrunHandlers) hhandlers hhs hhe
  rw [hcode]
  refine ⟨a, b, c, d, ?_, ?_, ?_, ?_, hab, hcd⟩ <;>
    rw [Method.placeOf?_map g.code g.relinkInstruction_uid] <;> assumption

/-- The last stage notes empty ranges, and exits whose targets are gone. -/
theorem Sound.reconciler_kind {m : Method} {terminators : List Value} (h : g₀.Sound P g)
    (hbuild : build m terminators = .ok g₀) (hnodup : (m.code.map (·.uid)).Nodup) :
    ∀ issue ∈ regionDefects g ++ exitDefects (regionsMoved g), issue.kind ≠ .exitOutOfBounds := by
  intro issue hissue
  rcases List.mem_append.mp hissue with hissue | hissue
  · obtain ⟨p, -, hissue⟩ := List.mem_flatMap.mp hissue
    have hkind : issue.kind = .emptyRegion := by
      unfold regionIssues at hissue
      simp only [List.mem_append, List.mem_ite_nil_right, List.mem_singleton] at hissue
      rcases hissue with ⟨-, rfl⟩ | ⟨-, rfl⟩ <;> rfl
    rw [hkind]
    decide
  · obtain ⟨ins, hins, hissue⟩ := List.mem_flatMap.mp hissue
    exact h.exit_near hbuild hnodup ((List.takeWhile_prefix _).subset hins) issue hissue

end Graph

namespace Pipeline

open Reconcile

variable {P : Platform} {g₀ : Graph} {w w' : Workbench} {settings : Settings} {m : Method}
  {changes changes' : List (String × Nat)}

/-! ## The end of the work -/

/-- All names in a graph can be looked up, and so can those in what is written out. -/
structure Nameable (g : Graph) : Prop where
  targets : g.checkTargets = .ok ()
  loops : g.checkLoops = .ok ()
  names : g.relinked.toMethod.checkNames = .ok ()

/-- A graph whose targets can be looked up is written out. -/
theorem reconstruct_ok (h : w.graph.checkTargets = .ok ()) :
    ∃ w', Work.reconstruct.run w = .ok w.graph.relinked.toMethod w' := by
  have hrelink : ∃ n w', Work.relink.run w = .ok n w' := by
    unfold Work.relink
    rw [Work.get_bind, Work.setGraph_bind, h]
    dsimp only
    split
    · exact ⟨_, _, rfl⟩
    · exact ⟨_, _, rfl⟩
  obtain ⟨n, w₁, hrelink⟩ := hrelink
  have hmade : ∃ m w', Work.reconstruct.run w = .ok m w' := ⟨_, _, Work.bind_of_ok hrelink⟩
  obtain ⟨m, w', hmade⟩ := hmade
  exact ⟨w', hmade.trans (by rw [Work.reconstruct_eq_ok hmade])⟩

/-- Reconstructing fails over names alone. -/
theorem reconstruct_run (w : Workbench) :
    (∃ w', Work.reconstruct.run w = .ok w.graph.relinked.toMethod w' ∧ w'.issues = w.issues)
      ∨ ∃ e w', Work.reconstruct.run w = .error (.misuse e) w' ∧ w'.issues = w.issues
        ∧ ¬ Nameable w.graph := by
  cases hmade : Work.reconstruct.run w with
  | ok m w' =>
    rw [Work.reconstruct_eq_ok hmade]
    exact Or.inl ⟨w', rfl, Work.quiet_reconstruct.ok hmade⟩
  | error f w' =>
    obtain ⟨hissues, e, rfl⟩ := Work.quiet_reconstruct.error hmade
    refine Or.inr ⟨e, w', rfl, hissues, fun hnameable => ?_⟩
    obtain ⟨w₁, hok⟩ := reconstruct_ok hnameable.targets
    rw [hmade] at hok
    cases hok

/-- Counting loops fails over targets alone. -/
theorem countLoops_run (w : Workbench) :
    (∃ loops w', countLoops.run w = .ok loops w' ∧ w.Alike w')
      ∨ ∃ e w', countLoops.run w = .error (.misuse e) w' ∧ w'.issues = w.issues
        ∧ ¬ Nameable w.graph := by
  cases hcounted : countLoops.run w with
  | ok loops w' => exact Or.inl ⟨loops, w', rfl, (countLoops_eq_ok hcounted).2⟩
  | error f w' =>
    obtain ⟨hissues, e, rfl⟩ := quiet_countLoops.error hcounted
    refine Or.inr ⟨e, w', rfl, hissues, fun hnameable => ?_⟩
    unfold countLoops at hcounted
    rw [Work.get_bind] at hcounted
    dsimp only at hcounted
    rw [hnameable.loops] at hcounted
    split at hcounted
    · cases hcounted
    · cases hcounted

/-- A method whose names can be looked up is committed if the checks find nothing in it. -/
theorem commit_of_names {m : Method} {w₁ : Workbench} (hmade : Work.reconstruct.run w = .ok m w₁)
    (hnames : m.checkNames = .ok ()) :
    ∃ w', w'.issues = w₁.issues ∧ (m.issues = [] ∧ (Work.commit []).run w = .ok m w'
      ∨ m.issues ≠ [] ∧ (Work.commit []).run w = .error (.inconsistent m.issues) w') := by
  have hrun : (Work.commit []).run w = (if !([] ++ m.issues).isEmpty then do
      for issue in [] ++ m.issues do
        Work.log "CFEX.reconstruct" Level.warning ("Validation failed: " ++ issue.text)
      throw (.inconsistent ([] ++ m.issues))
    else return m : Work Method).run w₁ := by
    unfold Work.commit
    rw [Work.bind_of_ok hmade]
    unfold Method.validate
    rw [hnames]
    rfl
  rw [hrun]
  by_cases hnone : m.issues = []
  · rw [hnone]
    exact ⟨w₁, rfl, Or.inl ⟨rfl, rfl⟩⟩
  · rw [if_pos (by simpa using hnone)]
    have hlogs := Work.says_forIn (f := fun (issue : Issue) (_ : PUnit) => do
        Work.log "CFEX.reconstruct" Level.warning ("Validation failed: " ++ issue.text)
        pure (ForInStep.yield PUnit.unit)) (fun _ _ => PUnit.unit)
      (fun issue (_ : issue ∈ [] ++ m.issues) _ => (Work.says_log _ _ _).bind (Work.says_pure _))
      PUnit.unit
    obtain ⟨w₂, hok, halike⟩ := hlogs w₁
    rw [Work.bind_of_ok hok]
    exact ⟨w₂, halike.issues, Or.inr ⟨hnone, rfl⟩⟩

/-- Committing notes no defects, and fails over those that are found in what is written out. -/
theorem commit_run (w : Workbench) :
    match (Work.commit []).run w with
    | .ok _ w' => w'.issues = w.issues
    | .error f w' => w'.issues = w.issues
      ∧ ((∃ e, f = .misuse e ∧ ¬ Nameable w.graph)
        ∨ ∃ issues, f = .inconsistent issues ∧ issues ≠ []
          ∧ issues = w.graph.relinked.toMethod.issues) := by
  rcases reconstruct_run w with ⟨w₁, hmade, hissues⟩ | ⟨e, w₁, hstuck, hissues, hnot⟩
  · cases hnames : w.graph.relinked.toMethod.checkNames with
    | error e =>
      unfold Work.commit
      rw [Work.bind_of_ok hmade]
      unfold Method.validate
      rw [hnames]
      refine ⟨hissues, Or.inl ⟨e, rfl, fun h => ?_⟩⟩
      rw [h.names] at hnames
      cases hnames
    | ok _ =>
      obtain ⟨w', hsame, ⟨-, hrun⟩ | ⟨hsome, hrun⟩⟩ := commit_of_names hmade hnames
      · rw [hrun]
        exact hsame.trans hissues
      · rw [hrun]
        exact ⟨hsame.trans hissues, Or.inr ⟨_, rfl, hsome, rfl⟩⟩
  · unfold Work.commit
    rw [Work.bind_of_error hstuck]
    exact ⟨hissues, Or.inl ⟨e, rfl, hnot⟩⟩

/-- The end of the work notes no defects. It fails over those that are noted or else over those
    that are found in what is written out. -/
theorem finish_run (m : Method) (changes : List (String × Nat)) (w : Workbench) :
    match (finish m changes).run w with
    | .ok o w' => w'.issues = w.issues ∧ o.issues = [] ∧ o.reverted = false
    | .error f w' => w'.issues = w.issues
      ∧ ((∃ e, f = .misuse e ∧ ¬ Nameable w.graph)
        ∨ ∃ issues, f = .inconsistent issues ∧ issues ≠ []
          ∧ (issues = w.issues ∨ issues = w.graph.relinked.toMethod.issues)) := by
  unfold finish
  rcases countLoops_run w with ⟨loops, w₁, hloops, halike⟩ | ⟨e, w₁, hstuck, hissues, hnot⟩
  · rw [Work.bind_of_ok hloops, Work.get_bind, ← halike.issues, ← halike.graph]
    dsimp only
    by_cases hnone : w₁.issues = []
    · rw [hnone, if_neg (by decide)]
      cases changes.all fun p => p.2 == 0 with
      | true => exact ⟨hnone, rfl, rfl⟩
      | false =>
        rw [if_neg (by decide)]
        have hcommit := commit_run w₁
        cases hwritten : (Work.commit []).run w₁ with
        | error f w₂ =>
          rw [hwritten] at hcommit
          rw [Work.bind_of_error hwritten]
          obtain ⟨hissues, hover⟩ := hcommit
          refine ⟨hissues.trans hnone, hover.imp_right fun ⟨issues, hf, hsome, hfound⟩ => ?_⟩
          exact ⟨issues, hf, hsome, Or.inr hfound⟩
        | ok body w₂ =>
          rw [hwritten] at hcommit
          rw [Work.bind_of_ok hwritten]
          exact ⟨Eq.trans hcommit hnone, rfl, rfl⟩
    · rw [if_pos (by simpa using hnone)]
      exact ⟨rfl, Or.inr ⟨w₁.issues, rfl, hnone, Or.inl rfl⟩⟩
  · rw [Work.bind_of_error hstuck]
    exact ⟨hissues, Or.inl ⟨e, rfl, hnot⟩⟩

/-! ## The work as a whole -/

/-- The last stage succeeds on a well-formed graph. -/
theorem runStage_reconciler_ok {s : Stage} (hkind : s.kind = .exceptionReconciler)
    (h : w.graph.Formed) (changes : List (String × Nat)) :
    ∃ changes' w', (runStage changes s).run w = .ok changes' w' := by
  obtain ⟨w₁, hfirst, -⟩ := Stage.reconcile_run h
  unfold runStage Stage.run
  rw [hkind]
  dsimp only
  rw [Work.bind_of_ok hfirst]
  split
  · exact ⟨_, _, rfl⟩
  · exact ⟨_, _, rfl⟩

/-- What the stages make of the graph that all but the last one have left: the last one moves
    regions and exits and notes the defects that it finds, if it is to run. -/
def Left (settings : Settings) (g : Graph) (w w' : Workbench) : Prop :=
  .exceptionReconciler ∉ settings.activeKinds ∧ w'.graph = g ∧ w'.issues = w.issues
    ∨ w'.graph = reconciled g
      ∧ w'.issues = w.issues ++ (regionDefects g ++ exitDefects (regionsMoved g))

/-- Nothing that is noted is an exit too far from its region. -/
theorem Left.noted {g : Graph} {m' : Method} {terminators : List Value}
    (h : Left settings g w w') (hnone : w.issues = []) (hsound : g₀.Sound P g)
    (hbuild : Graph.build m' terminators = .ok g₀) (hnodup : (m'.code.map (·.uid)).Nodup) :
    ∀ issue ∈ w'.issues, issue.kind ≠ .exitOutOfBounds := by
  rcases h with ⟨-, -, hsame⟩ | ⟨-, hadded⟩
  · rw [hsame, hnone]
    exact nofun
  · rw [hadded, hnone]
    exact hsound.reconciler_kind hbuild hnodup

/-- If the last stage is to run and nothing is noted, every region that is written out lies in
    order in the code that is written out. -/
theorem Left.ordered {g : Graph} {m' : Method} {terminators : List Value}
    (h : Left settings g w w') (hactive : .exceptionReconciler ∈ settings.activeKinds)
    (hnil : w'.issues = []) (hsound : g₀.Sound P g)
    (hbuild : Graph.build m' terminators = .ok g₀) (hnodup : (m'.code.map (·.uid)).Nodup) :
    ∀ r ∈ w'.graph.relinked.toMethod.regions,
      ∃ a b c d, Graph.RangeOf w'.graph.relinked.toMethod.code r a b c d := by
  rcases h with ⟨hidle, -⟩ | ⟨hgraph, hadded⟩
  · exact absurd hactive hidle
  · rw [hnil] at hadded
    obtain ⟨-, hfound⟩ := List.append_eq_nil_iff.mp hadded.symm
    have hempty : regionDefects g = [] := (List.append_eq_nil_iff.mp hfound).1
    rw [hgraph]
    exact hsound.regions_ordered (Graph.build_formed hbuild hnodup).1
      (Graph.build_ranged hbuild hnodup) hempty

/-- The stages stop over misuse, or leave a sound graph on which the last one has worked if it is to
    run. Only that one notes defects. -/
theorem stages_run {stages : List Stage} (hkinds : stages.map (·.kind) = settings.activeKinds)
    (hP : P.terminators = g₀.terminators) (hw : Steady P g₀ w) (changes : List (String × Nat)) :
    match (stages.foldlM runStage changes).run w with
    | .error f w' => w'.issues = w.issues ∧ ∃ e, f = .misuse e
    | .ok _ w' => ∃ g, g₀.Sound P g ∧ Left settings g w w' := by
  obtain ⟨front, last, hactive, hfront, hlast⟩ := activeKinds_eq settings
  obtain ⟨early, late, rfl, hearly, hlate⟩ := List.map_eq_append_iff.mp (hkinds.trans hactive)
  have hnotes := early_kind (hearly ▸ hfront)
  rw [List.foldlM_append]
  have hquiet : Work.Quiet (early.foldlM runStage changes) :=
    Work.quiet_foldlM (fun changes s hs => quiet_runStage (hnotes s hs) changes) changes
  cases hrun : (early.foldlM runStage changes).run w with
  | error f w₁ =>
    rw [Work.bind_of_error hrun]
    exact hquiet.error hrun
  | ok changes₁ w₁ =>
    have hsame : w₁.issues = w.issues := hquiet.ok hrun
    rw [Work.bind_of_ok hrun]
    have hsteady := (runStages_steady hnotes hP hw hrun).1
    rcases hlast with rfl | rfl
    · rw [List.map_eq_nil_iff] at hlate
      subst hlate
      refine ⟨w₁.graph, hsteady.sound, Or.inl ⟨fun hmem => ?_, rfl, hsame⟩⟩
      rw [hactive, List.append_nil] at hmem
      exact absurd (hfront.subset hmem) (by decide)
    · obtain ⟨s, rfl, hs⟩ := List.map_eq_singleton_iff.mp hlate
      rw [List.foldlM_cons]
      obtain ⟨changes₂, w₂, hstage⟩ :=
        runStage_reconciler_ok hs hsteady.sound.formed changes₁
      obtain ⟨hgraph, -, hnoted, -⟩ := runStage_reconciler hs hsteady.sound.formed hstage
      rw [Work.bind_of_ok hstage]
      rw [List.append_assoc, hsame] at hnoted
      exact ⟨w₁.graph, hsteady.sound, Or.inr ⟨hgraph, hnoted⟩⟩

/-- On a graph that has just been built the stages start out from a sound graph, all of which is in
    reach. -/
theorem steady_of_build {m' : Method} {terminators : List Value} {analysis : Analysis}
    {w₁ : Workbench} (hbuild : Graph.build m' terminators = .ok w.graph)
    (hnodup : (m'.code.map (·.uid)).Nodup) (hfacts : w.facts = none)
    (halike : ({ w with graph := w.graph.pruned, analysis } : Workbench).Alike w₁)
    (hmachine : P.machine = analysis.machine) (hP : P.terminators = terminators) :
    P.terminators = w.graph.terminators ∧ Steady P w.graph w₁ := by
  have hsame : P.terminators = w.graph.terminators :=
    hP.trans (Graph.build_terminators hbuild).symm
  obtain ⟨hsound, hreached⟩ := (Method.build_sound P hbuild hnodup).pruned hsame
  refine ⟨hsame, ⟨⟨halike.graph ▸ hsound, Workbench.informed_of_none (halike.facts.trans hfacts),
    ?_⟩, halike.graph ▸ hreached⟩⟩
  rw [halike.analysis]
  exact hmachine

/-- What the work notes and what it fails over, on a graph that has just been built. -/
theorem work_defects (settings : Settings) (m : Method) {m' : Method} {terminators : List Value}
    {g : Graph} (hbuild : Graph.build m' terminators = .ok g) (hnodup : (m'.code.map (·.uid)).Nodup)
    (hgraph : w.graph = g) (hfacts : w.facts = none) (hissues : w.issues = []) :
    match (work settings m).run w with
    | .ok o w' => (∀ issue ∈ w'.issues, issue.kind ≠ .exitOutOfBounds) ∧ o.issues = []
    | .error f w' => (∀ issue ∈ w'.issues, issue.kind ≠ .exitOutOfBounds)
      ∧ ∀ issues, f = .inconsistent issues →
        (∀ issue ∈ issues, issue.kind ≠ .exitOutOfBounds)
        ∧ (.exceptionReconciler ∈ settings.activeKinds → w'.issues = [] →
          ∀ issue ∈ issues, issue.kind ≠ .danglingRegion ∧ issue.kind ≠ .emptyRegion) := by
  subst hgraph
  obtain ⟨hformed, hlinked⟩ := Graph.build_formed hbuild hnodup
  rcases work_run settings m hformed hlinked with
    ⟨e, w', hstuck, hsame, -⟩ | ⟨analysis, stages, w₁, hanalysis, hstages, halike, hrun⟩
  · rw [hstuck]
    refine ⟨fun issue hissue => ?_, nofun⟩
    rw [hsame, hissues] at hissue
    cases hissue
  let P : Platform := ⟨analysis.machine, default, terminators⟩
  obtain ⟨hP, hsteady⟩ := steady_of_build (P := P) hbuild hnodup hfacts halike rfl rfl
  have hnone : w₁.issues = [] := halike.issues.trans hissues
  have hleft := stages_run hstages.kinds hP hsteady [(unreachableKey, w.graph.unreachable.length)]
  rw [hrun]
  cases hran : (stages.foldlM runStage [(unreachableKey, w.graph.unreachable.length)]).run w₁ with
  | error f w₂ =>
    rw [hran] at hleft
    obtain ⟨hsame, e, rfl⟩ := hleft
    rw [Work.bind_of_error hran]
    refine ⟨fun issue hissue => ?_, nofun⟩
    rw [hsame, hnone] at hissue
    cases hissue
  | ok changes w₂ =>
    rw [hran] at hleft
    obtain ⟨g, hsound, hlast⟩ := hleft
    rw [Work.bind_of_ok hran]
    have hnoted := hlast.noted hnone hsound hbuild hnodup
    have hfinish := finish_run m changes w₂
    cases hend : (finish m changes).run w₂ with
    | ok o w' =>
      rw [hend] at hfinish
      obtain ⟨hsame, hnothing, -⟩ := hfinish
      exact ⟨hsame ▸ hnoted, hnothing⟩
    | error f w' =>
      rw [hend] at hfinish
      obtain ⟨hsame, hover⟩ := hfinish
      refine ⟨hsame ▸ hnoted, fun issues hf => ?_⟩
      rcases hover with ⟨e, rfl, -⟩ | ⟨found, rfl, hsome, hover⟩
      · cases hf
      cases hf
      rcases hover with rfl | rfl
      · exact ⟨hnoted, fun _ hnil => absurd (hsame ▸ hnil) hsome⟩
      · -- These are the defects of what is written out, and the checks of that note no exits.
        refine ⟨fun issue hissue => (Method.issues_kind issue hissue).1, fun hactive hnil => ?_⟩
        have hordered := hlast.ordered hactive (hsame ▸ hnil) hsound hbuild hnodup
        exact fun issue hissue => (Method.issues_kind issue hissue).2 hordered

end Pipeline

namespace Method

/-- The work on a method notes no exit as too far from its region, so that no method stays as it
    was because of one. If the last stage runs and the work notes nothing, then no region is found
    defective in what is written out. -/
theorem work_keeps_bounds (m : Method) (settings : Settings)
    (hnodup : (m.code.map (·.uid)).Nodup) {g : Graph}
    (hbuild : Graph.build m.copy settings.terminators = .ok g) :
    (∀ o w, m.workOn settings g = .ok o w → ∀ issue ∈ w.issues, issue.kind ≠ .exitOutOfBounds)
      ∧ (∀ f w, m.workOn settings g = .error f w →
        ∀ issue ∈ w.issues, issue.kind ≠ .exitOutOfBounds)
      ∧ (∀ issue ∈ (m.normalize settings).issues, issue.kind ≠ .exitOutOfBounds)
      ∧ (.exceptionReconciler ∈ settings.activeKinds →
        ∀ issues w, m.workOn settings g = .error (.inconsistent issues) w → w.issues = [] →
          ∀ issue ∈ issues, issue.kind ≠ .danglingRegion ∧ issue.kind ≠ .emptyRegion) := by
  have hdefects := Pipeline.work_defects settings m
    (w := { graph := g, analysis := {}, method := m.name }) hbuild (copy_nodup hnodup) rfl rfl rfl
  obtain ⟨hdone, hreverted⟩ := normalize_of_build hbuild
  cases hrun : m.workOn settings g with
  | ok o w =>
    rw [show (Pipeline.work settings m).run _ = .ok o w from hrun] at hdefects
    obtain ⟨hnoted, hnothing⟩ := hdefects
    rw [hdone o w hrun, hnothing]
    refine ⟨fun o' w' h => ?_, (fun _ _ h => nomatch h), nofun, (fun _ _ _ h => nomatch h)⟩
    cases h
    exact hnoted
  | error f w =>
    rw [show (Pipeline.work settings m).run _ = .error f w from hrun] at hdefects
    obtain ⟨hnoted, hover⟩ := hdefects
    rw [hreverted f w hrun]
    refine ⟨(fun _ _ h => nomatch h), fun f' w' h => ?_, ?_, fun hactive issues w' h hnone => ?_⟩
    · cases h
      exact hnoted
    · cases f with
      | inconsistent issues => exact (hover issues rfl).1
      | _ => exact nofun
    · cases h
      exact (hover issues rfl).2 hactive hnone

/-- A protected range that starts with a no-op, in which an instruction has no opcode. -/
def missingOpcode : Method where
  code :=
    [{ opcode := some .nop, uid := 0 },
     { opcode := none, uid := 1 },
     { opcode := some .leave, operand := .value (.int 4), uid := 2 },
     { opcode := some .other, uid := 3, mnemonic := .str "endfinally" },
     { opcode := some .other, uid := 4, mnemonic := .str "ret" }]
  regions :=
    [{ kind := .finally, tryStart := .int 0, tryEnd := .int 2, handlerStart := .int 3,
       handlerEnd := .int 3 }]

/-- The work comes to the end and is given up because of the opcode, with nothing noted. The
    region has lost its first instruction and is not found defective. -/
theorem missingOpcode_keeps_bounds : ∃ g,
    Graph.build missingOpcode.copy ({} : Settings).terminators = .ok g
      ∧ .exceptionReconciler ∈ ({} : Settings).activeKinds
      ∧ (∃ issues w, missingOpcode.workOn {} g = .error (.inconsistent issues) w
        ∧ w.issues = [] ∧ issues ≠ []
        ∧ ∀ issue ∈ issues, issue.kind ≠ .danglingRegion ∧ issue.kind ≠ .emptyRegion)
      ∧ ∀ issue ∈ (missingOpcode.normalize {}).issues, issue.kind ≠ .exitOutOfBounds := by
  have hall : (Graph.build missingOpcode.copy ({} : Settings).terminators).toOption.any (fun g =>
      match missingOpcode.workOn {} g with
      | .ok _ _ => false
      | .error f w => w.issues.isEmpty && !(Outcome.revert missingOpcode f).issues.isEmpty)
        = true := by
    decide +kernel
  obtain ⟨g, hbuild, hworked⟩ := exists_ok_of_any hall
  have hactive : .exceptionReconciler ∈ ({} : Settings).activeKinds := by decide
  obtain ⟨-, -, hnormalized, hregions⟩ := work_keeps_bounds missingOpcode {} (by decide) hbuild
  refine ⟨g, hbuild, hactive, ?_, hnormalized⟩
  cases hrun : missingOpcode.workOn {} g with
  | ok o w =>
    rw [hrun] at hworked
    cases hworked
  | error f w =>
    rw [hrun, Bool.and_eq_true, List.isEmpty_iff, Bool.not_eq_true'] at hworked
    obtain ⟨hnone, hsome⟩ := hworked
    cases f with
    | inconsistent issues =>
      refine ⟨issues, w, rfl, hnone, ?_, hregions hactive issues w hrun hnone⟩
      rintro rfl
      cases hsome
    | _ => cases hsome

end Method

end Untangle
