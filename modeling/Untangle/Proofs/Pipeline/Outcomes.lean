/-
  Untangle.Proofs.Pipeline.Outcomes

  What every outcome is like, whatever the method and the settings are
  (`Method.normalize_clear`): it has the name of the method, is of one kind, and lists each stage
  once.
-/
import Untangle.Proofs.Pipeline.Behaviour

namespace Untangle

/-- An outcome is of one kind, and lists each stage once. -/
structure Outcome.Clear (o : Outcome) : Prop where
  skipped : o.skipped = true → o.rewritten = false ∧ o.reverted = false
  rewritten : o.rewritten = true → o.reverted = false
  stages : (o.changes.map (·.1)).Nodup

/-- The kinds of outcomes: left out, rewritten, reverted, or none of these. -/
theorem Outcome.Clear.kinds {o : Outcome} (h : o.Clear) :
    o.skipped = true ∧ o.rewritten = false ∧ o.reverted = false
    ∨ o.skipped = false ∧ o.rewritten = true ∧ o.reverted = false
    ∨ o.skipped = false ∧ o.rewritten = false ∧ o.reverted = true
    ∨ o.skipped = false ∧ o.rewritten = false ∧ o.reverted = false := by
  obtain ⟨hskipped, hrewritten, -⟩ := h
  cases hs : o.skipped with
  | true => exact Or.inl ⟨rfl, hskipped hs⟩
  | false =>
    cases hr : o.rewritten with
    | true => exact Or.inr (Or.inl ⟨rfl, rfl, hrewritten hr⟩)
    | false => cases o.reverted <;> simp

namespace Pipeline

variable {settings : Settings} {w w' : Workbench} {changes changes' : List (String × Nat)}

/-! ## The stages that are listed -/

/-- No stage is listed twice. -/
def Listed (changes : List (String × Nat)) : Prop := (changes.map (·.1)).Nodup

theorem Listed.add (h : Listed changes) (key : String) (n : Nat) :
    Listed (addChanges changes key n) :=
  (Entries.sole key).nodup_update _ h

/-- By induction on the rounds. -/
theorem Listed.again {s : Stage} {rounds : Nat} (h : Listed changes)
    (hrun : (resolveAgain s rounds changes).run w = .ok changes' w') : Listed changes' := by
  induction rounds generalizing w changes with
  | zero =>
    obtain ⟨rfl, -⟩ := Work.pure_eq_ok.mp hrun
    exact h
  | succ rounds ih =>
    obtain ⟨dead, w₁, -, hrun⟩ := Work.bind_eq_ok.mp hrun
    rw [Work.invalidate_bind] at hrun
    obtain ⟨n, w₂, -, hrun⟩ := Work.bind_eq_ok.mp hrun
    have hlisted := (h.add unreachableKey dead.length).add s.kind.key n
    dsimp only at hrun
    split at hrun
    · obtain ⟨rfl, -⟩ := Work.pure_eq_ok.mp hrun
      exact hlisted
    · exact ih hlisted hrun

theorem Listed.stage {s : Stage} (h : Listed changes)
    (hrun : (runStage changes s).run w = .ok changes' w') : Listed changes' := by
  obtain ⟨n, w₁, changes₁, -, rfl, hrest⟩ := runStage_eq_ok hrun
  have hlisted := h.add s.kind.key n
  rcases hrest with ⟨-, rfl, -⟩ | ⟨-, w₂, -, ⟨-, hagain⟩ | ⟨-, rfl, -⟩⟩
  · exact hlisted
  · exact hlisted.again hagain
  · exact hlisted

theorem Listed.stages {stages : List Stage} (h : Listed changes)
    (hrun : (stages.foldlM runStage changes).run w = .ok changes' w') :
    Listed changes' := by
  induction stages generalizing w changes with
  | nil =>
    obtain ⟨rfl, -⟩ := Work.pure_eq_ok.mp hrun
    exact h
  | cons s stages ih =>
    rw [List.foldlM_cons] at hrun
    obtain ⟨between, w₁, hfirst, hrun⟩ := Work.bind_eq_ok.mp hrun
    exact ih (h.stage hfirst) hrun

/-- An outcome that the work ends with is of the method, which was neither left out nor
    reverted. -/
theorem finish_plain {m : Method} {o : Outcome} (hrun : (finish m changes).run w = .ok o w') :
    o.name = m.name ∧ o.skipped = false ∧ o.reverted = false := by
  obtain ⟨loops, w₁, -, hrun⟩ := Work.bind_eq_ok.mp hrun
  rw [Work.get_bind] at hrun
  dsimp only at hrun
  split at hrun
  · obtain ⟨_, _, hthrow, -⟩ := Work.bind_eq_ok.mp hrun
    exact absurd hthrow Work.throw_ne_ok
  split at hrun
  · obtain ⟨rfl, -⟩ := Work.pure_eq_ok.mp hrun
    exact ⟨rfl, rfl, rfl⟩
  · obtain ⟨body, w₂, -, hrun⟩ := Work.bind_eq_ok.mp hrun
    obtain ⟨_, w₃, -, hrun⟩ := Work.bind_eq_ok.mp hrun
    obtain ⟨rfl, -⟩ := Work.pure_eq_ok.mp hrun
    exact ⟨rfl, rfl, rfl⟩

/-- The work ends with the changes that the stages list. -/
theorem work_ends {m : Method} {o : Outcome} (hrun : (work settings m).run w = .ok o w') :
    ∃ changes w₁, Listed changes ∧ (finish m changes).run w₁ = .ok o w' := by
  rw [work_eq, Work.get_bind] at hrun
  obtain ⟨_, w₁, -, hrun⟩ := Work.bind_eq_ok.mp hrun
  obtain ⟨dead, w₂, -, hrun⟩ := Work.bind_eq_ok.mp hrun
  cases hanalysis : settings.analysisOf with
  | error e =>
    rw [hanalysis] at hrun
    obtain ⟨_, _, hthrow, -⟩ := Work.bind_eq_ok.mp hrun
    exact absurd hthrow Work.throw_ne_ok
  | ok analysis =>
  rw [hanalysis] at hrun
  obtain ⟨_, w₃, -, hrun⟩ := Work.bind_eq_ok.mp hrun
  obtain ⟨_, w₄, -, hrun⟩ := Work.bind_eq_ok.mp hrun
  obtain ⟨stages, w₅, -, hrun⟩ := Work.bind_eq_ok.mp hrun
  obtain ⟨changes, w₆, hstages, hrun⟩ := Work.bind_eq_ok.mp hrun
  have hstart : Listed [(unreachableKey, dead.length)] := List.nodup_singleton _
  exact ⟨changes, w₆, hstart.stages hstages, hrun⟩

/-- The work ends with an outcome of the method that is clear. -/
theorem work_clear {m : Method} {o : Outcome} (hrun : (work settings m).run w = .ok o w') :
    o.name = m.name ∧ o.Clear := by
  obtain ⟨changes, w₁, hlisted, hfinish⟩ := work_ends hrun
  obtain ⟨hname, hskipped, hreverted⟩ := finish_plain hfinish
  refine ⟨hname, ⟨fun h => absurd h (by rw [hskipped]; decide), fun _ => hreverted, ?_⟩⟩
  rw [(finish_eq_ok hfinish).2.1, List.map_map]
  exact hlisted

end Pipeline

theorem Outcome.revert_clear (m : Method) (f : Fault) :
    (revert m f).name = m.name ∧ (revert m f).Clear := by
  cases f <;> exact ⟨rfl, ⟨nofun, nofun, .nil⟩⟩

/-- Whatever comes of a method has its name, and is of one kind. -/
theorem Method.normalize_clear (m : Method) (settings : Settings) :
    (m.normalize settings).name = m.name ∧ (m.normalize settings).Clear := by
  cases hbuild : Graph.build m.copy settings.terminators with
  | error f =>
    rw [normalize_of_refused hbuild]
    exact Outcome.revert_clear m f
  | ok g =>
    obtain ⟨hdone, hfailed⟩ := normalize_of_build hbuild
    cases hwork : m.workOn settings g with
    | ok o w =>
      rw [hdone o w hwork]
      exact Pipeline.work_clear hwork
    | error f w =>
      rw [hfailed f w hwork]
      exact Outcome.revert_clear m f

end Untangle
