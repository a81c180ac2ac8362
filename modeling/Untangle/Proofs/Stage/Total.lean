/-
  Untangle.Proofs.Stage.Total

  Stages that do not fail. An instruction whose parts are of the kinds that its opcode asks for can
  be run from every stack, so facts are found whenever they are asked for. The instructions that
  stages make are such ones, and nothing else can go wrong on a well-formed graph.
-/
import Untangle.Proofs.Abstract.Course
import Untangle.Proofs.Abstract.Forward
import Untangle.Proofs.Listing
import Untangle.Proofs.Stage.Run

namespace Untangle

/-- A machine whose width is a whole one, and whose sizes can be looked up. -/
structure Machine.Proper (m : Machine) : Prop where
  width : ∃ w, m.width = .whole w
  sizes : ∃ table, m.sizes = .ok table

/-- All instructions of a graph are runnable, apart from those that stages make. -/
def Graph.Runnable (g : Graph) : Prop := ∀ ins ∈ g.code, ins.Runnable ∨ ins.IsMade

namespace Graph

variable {P : Platform} {g g' : Graph} {m : Machine}

theorem Runnable.kept (h : g.Runnable) (hkept : g.Kept P g') : g'.Runnable := fun j hj =>
  (hkept.drawn j hj).elim (h j) Or.inr

/-! ## Facts -/

/-- There is nothing to be told about an instruction that a stage makes. -/
theorem of?_of_made {ins : Instruction} (h : ins.IsMade) (m : Machine) (s : AbstractStack) :
    Report.of? m ins s = none := by
  unfold Report.of?
  rcases h with hop | hop | hop <;> rw [hop]

theorem of?_ne_fault {ins : Instruction} (h : ins.Runnable ∨ ins.IsMade) (hm : m.Proper)
    (s : AbstractStack) (f : Misuse) : Report.of? m ins s ≠ some (.fault f) := by
  obtain ⟨⟨w, hw⟩, table, hsizes⟩ := hm
  rcases h with h | hmade
  · unfold Report.of?
    split
    · rename_i op _ _
      split
      · exact nofun
      · rename_i hmisuse
        exact absurd hmisuse (Report.evaluate_ne_misuse hw op _ _)
      · exact nofun
    · rename_i v hop hoperand
      obtain ⟨op, hoperation⟩ := h.operation hop
      rw [hoperation] at hoperand
      cases hoperand
    · rename_i hop
      rw [h.condition hop]
      simp
    · rw [hsizes]
      exact nofun
    · rw [h.effect]
      exact nofun
    · rw [h.effect]
      exact nofun
    · exact nofun
  · rw [of?_of_made hmade]
    exact nofun

/-- All blocks of a runnable graph run, whatever the stack is. -/
theorem Runnable.runs (h : g.Runnable) (hm : m.Proper) : g.Runs m := by
  obtain ⟨w, hw⟩ := hm.width
  exact (runs_iff hw).mpr fun ins hins => of?_ne_fault (h ins hins) hm

end Graph

/-- The single pass finds facts about a graph whose blocks all run. -/
theorem Analysis.forward_total {m : Machine} {g : Graph} (h : g.Runs m) :
    (Analysis.findings { kind := .forward, machine := m } g).facts
      = .ok (Analysis.facts { kind := .forward, machine := m } g) := by
  refine (facts_eq_outcome _ g).trans (Course.outcome_eq_ok.mpr ⟨rfl, fun a ha => ?_, rfl⟩)
  refine h a.1 ?_ a.2
  rw [← Forward.arrivals_blocks m g]
  exact List.mem_map_of_mem ha

/-- An analysis finds facts about a graph whose blocks all run. -/
theorem Analysis.findings_total (a : Analysis) {g : Graph} (hformed : g.Formed)
    (hlinked : g.Linked) (h : g.Runs a.machine) : ∃ f, (a.findings g).facts = .ok f := by
  obtain ⟨kind, m, schedule⟩ := a
  cases kind with
  | worklist =>
    exact ⟨_, (Analysis.facts_worklist m g schedule).trans
      (Graph.Runs.outcome h hformed hlinked schedule)⟩
  | forward => exact ⟨_, Analysis.forward_total h⟩

/-- After an action that has succeeded the work succeeds if the rest does. -/
theorem Work.exists_bind {α β : Type} {x : Work α} {f : α → Work β} {w w₁ : Workbench} {a : α}
    (hx : x.run w = .ok a w₁) (hf : ∃ b w', (f a).run w₁ = .ok b w') :
    ∃ b w', (x >>= f).run w = .ok b w' := by
  rw [Work.bind_of_ok hx]
  exact hf

namespace Stage

variable {w : Workbench}

/-- Facts that can be found are found, if none are kept from before. -/
theorem exists_facts {f : Facts} (hfound : (w.analysis.findings w.graph).facts = .ok f) :
    ∃ f w', Work.facts.run w = .ok f w' := by
  unfold Work.facts
  rw [Work.get_bind]
  cases w.facts with
  | some f' => exact ⟨f', w, rfl⟩
  | none =>
    obtain ⟨w₁, hnotes, -⟩ := Work.says_forM
      (fun a _ => Work.says_log "CFEX.analysis" Level.debug a) w
    dsimp only
    rw [Work.bind_of_ok hnotes, hfound]
    exact ⟨f, _, rfl⟩

/-- Facts are found about a runnable graph. -/
theorem facts_total (hformed : w.graph.Formed) (hlinked : w.graph.Linked)
    (hrunnable : w.graph.Runnable) (hproper : w.analysis.machine.Proper) :
    ∃ f w', Work.facts.run w = .ok f w' := by
  obtain ⟨f, hfound⟩ := w.analysis.findings_total hformed hlinked (hrunnable.runs hproper)
  exact exists_facts hfound

end Stage

/-! ## Folding -/

/-- An event that is no fault. -/
def FoldEvent.IsSound (event : FoldEvent) : Prop := ∀ m, event ≠ .fault m

namespace Folder

variable {folder : Folder} {b : Block} {f : Folding} {ins : Instruction}

theorem arithmeticResult_sound (hm : folder.machine.Proper) (f : Folding) (ins : Instruction)
    (op : ArithOp) : ∀ event ∈ (folder.arithmeticResult f ins op).2, event.IsSound := by
  obtain ⟨⟨w, hw⟩, -⟩ := hm
  unfold arithmeticResult
  dsimp only
  split
  · exact nofun
  split
  · exact nofun
  split
  · rename_i m hmisuse
    exfalso
    unfold ArithOp.evaluateAt at hmisuse
    rw [hw] at hmisuse
    split at hmisuse
    · cases hmisuse
    · dsimp only at hmisuse
      cases heval : op.evaluate _ w folder.machine.policy with
      | error o =>
        rw [heval] at hmisuse
        cases hmisuse
      | ok r =>
        rw [heval] at hmisuse
        cases hmisuse
  · intro event hevent
    rw [List.mem_singleton.mp hevent]
    exact nofun
  · exact nofun
  split
  · split
    all_goals
      intro event hevent
      simp only [List.mem_cons, List.not_mem_nil, or_false] at hevent
      rcases hevent with rfl | rfl <;> exact nofun
  · intro event hevent
    simp only [List.mem_cons, List.not_mem_nil, or_false] at hevent
    rcases hevent with rfl | rfl <;> exact nofun

theorem mem_report {events : List FoldEvent} (hf : ∀ event ∈ f.events, event.IsSound)
    (hevents : ∀ event ∈ events, event.IsSound) :
    ∀ event ∈ (f.report events).events, event.IsSound := fun event hevent =>
  (List.mem_append.mp hevent).elim (hf event) (hevents event)

/-- Taking one more instruction meets no fault. -/
theorem step_sound (hm : folder.machine.Proper) (hins : ins.Runnable ∨ ins.IsMade)
    (hf : ∀ event ∈ f.events, event.IsSound) :
    ∀ event ∈ (folder.step b f ins).events, event.IsSound := by
  unfold step
  split
  · exact hf
  · split
    · refine mem_report hf fun event hevent => ?_
      rw [List.mem_singleton.mp hevent]
      exact nofun
    · refine mem_report hf fun event hevent => ?_
      rw [List.mem_singleton.mp hevent]
      exact nofun
  · rename_i op _ _
    split
    · unfold foldArithmetic
      have hresult := arithmeticResult_sound hm f ins op
      dsimp only
      split
      · exact mem_report hf hresult
      · refine mem_report (f := { f with view := _, count := _ }) hf fun event hevent => ?_
        rcases List.mem_append.mp hevent with hevent | hevent
        · exact hresult event hevent
        · obtain ⟨e, -, rfl⟩ := List.mem_map.mp hevent
          exact nofun
    · exact hf
  · rename_i v hop hoperand
    exfalso
    rcases hins with h | h | h | h
    · obtain ⟨op, hoperation⟩ := h.operation hop
      rw [hoperation] at hoperand
      cases hoperand
    all_goals
      rw [h] at hop
      cases hop
  · exact hf

theorem foldBlock_sound (folder : Folder) (hm : folder.machine.Proper)
    (hb : ∀ ins ∈ b.code, ins.Runnable ∨ ins.IsMade) :
    ∀ event ∈ (folder.foldBlock b).events, event.IsSound := by
  have hrun (code : List Instruction) (hcode : code ⊆ b.code) (f : Folding)
      (hf : ∀ event ∈ f.events, event.IsSound) :
      ∀ event ∈ (code.foldl (folder.step b) f).events, event.IsSound := by
    induction code generalizing f with
    | nil => exact hf
    | cons ins rest ih =>
      rw [List.cons_subset] at hcode
      exact ih hcode.2 _ (step_sound hm (hb ins hcode.1) hf)
  exact hrun b.code (List.Subset.refl _) {} nofun

end Folder

namespace Stage

variable {w : Workbench}

theorem foldEvents_total {events : List FoldEvent} (hevents : ∀ event ∈ events, event.IsSound)
    (hformed : w.graph.Formed) (hlinked : w.graph.Linked) (hrunnable : w.graph.Runnable)
    (hproper : w.analysis.machine.Proper) :
    ∃ edits w', (events.mapM foldEvent).run w = .ok edits w' := by
  induction events generalizing w with
  | nil => exact ⟨[], w, rfl⟩
  | cons event events ih =>
    obtain ⟨first, w₁, hfirst⟩ : ∃ edits w', (foldEvent event).run w = .ok edits w' := by
      unfold foldEvent
      cases event with
      | queue e => exact ⟨_, _, rfl⟩
      | note text => exact ⟨_, _, rfl⟩
      | fault m => exact absurd rfl (hevents _ List.mem_cons_self m)
      | consult =>
        obtain ⟨f, w₁, hfacts⟩ := facts_total hformed hlinked hrunnable hproper
        exact ⟨_, _, Work.bind_of_ok hfacts⟩
    obtain ⟨-, hgraph, hanalysis, -⟩ := foldEvent_eq_ok hfirst
    obtain ⟨others, w₂, hothers⟩ := ih (fun e he => hevents e (List.mem_cons_of_mem _ he))
      (hgraph ▸ hformed) (hgraph ▸ hlinked) (hgraph ▸ hrunnable) (hanalysis ▸ hproper)
    rw [List.mapM_cons, Work.bind_of_ok hfirst, Work.bind_of_ok hothers]
    exact ⟨_, _, rfl⟩

/-- Folding succeeds if all that comes of looking for what to fold does. -/
theorem exists_foldConstants {s : Stage} {w₁ : Workbench} {edits : List (List Edit)}
    (hformed : w.graph.Formed) (hlinked : w.graph.Linked)
    (hevents : (((w.graph.blocks.map (s.folder w).foldBlock).flatMap (·.events)).mapM
      foldEvent).run w = .ok edits w₁) : ∃ n w', s.foldConstants.run w = .ok n w' := by
  obtain ⟨hedits, hgraph, -⟩ := foldEvents_eq_ok hevents
  have hall : edits.flatten = w.graph.blocks.flatMap (s.folder w).edits := by
    rw [hedits, List.flatMap_map, List.filterMap_flatMap]
    rfl
  unfold foldConstants
  rw [Work.get_bind]
  refine Work.exists_bind hevents ?_
  dsimp only
  split
  · obtain ⟨w₂, happly, -⟩ := Work.applyEdits_suits (w := w₁) (s.folder w).edits
      (hgraph ▸ hformed) (hgraph ▸ hlinked) (hgraph ▸ Folder.suits (s.folder w) hformed)
    rw [hall, ← hgraph]
    exact Work.exists_bind happly ⟨_, _, rfl⟩
  · exact ⟨_, _, rfl⟩

theorem foldConstants_total (s : Stage) (hformed : w.graph.Formed) (hlinked : w.graph.Linked)
    (hrunnable : w.graph.Runnable) (hproper : w.analysis.machine.Proper) :
    ∃ n w', s.foldConstants.run w = .ok n w' := by
  have hsound : ∀ event ∈ (w.graph.blocks.map (s.folder w).foldBlock).flatMap (·.events),
      event.IsSound := by
    intro event hevent
    rw [List.flatMap_map] at hevent
    obtain ⟨b, hb, hevent⟩ := List.mem_flatMap.mp hevent
    exact (s.folder w).foldBlock_sound hproper
      (fun ins hins => hrunnable ins (List.mem_flatMap.mpr ⟨b, hb, hins⟩)) event hevent
  obtain ⟨edits, w₁, hevents⟩ := foldEvents_total hsound hformed hlinked hrunnable hproper
  exact exists_foldConstants hformed hlinked hevents

/-- All stages but the last succeed on runnable graphs. -/
theorem run_total {s : Stage} (hkind : s.kind ≠ .exceptionReconciler) (hformed : w.graph.Formed)
    (hlinked : w.graph.Linked) (hrunnable : w.graph.Runnable)
    (hproper : w.analysis.machine.Proper) : ∃ n w', s.run.run w = .ok n w' := by
  unfold run
  split
  · obtain ⟨f, w₁, hfacts⟩ := facts_total hformed hlinked hrunnable hproper
    obtain ⟨w', hrun, -⟩ := resolveSwitches_run hformed hfacts
    exact ⟨_, w', hrun⟩
  · obtain ⟨w', hrun, -⟩ := eliminateJunk_run hformed hlinked
    exact ⟨_, w', hrun⟩
  · exact foldConstants_total s hformed hlinked hrunnable hproper
  · rename_i hlast
    exact absurd hlast hkind

end Stage

end Untangle
