/-
  Untangle.Proofs.Renaming.Pipeline

  The work on a graph and the work on the graph with another numbering, side by side. Each step
  succeeds on both or fails on both, and after it the graphs still differ by their numbering only.
-/
import Untangle.Proofs.Pipeline.Faults
import Untangle.Proofs.Renaming.Reconcile
import Untangle.Proofs.Renaming.Stage

namespace Untangle.Renaming

/-! ## Two workbenches -/

/-- Two workbenches with graphs that differ by their numbering only. -/
structure Bench (σ : Renaming) (w v : Workbench) : Prop where
  graph : v.graph = σ.graph w.graph
  analysis : v.analysis = w.analysis
  forward : w.analysis.kind = .forward
  issues : v.issues.map (·.kind) = w.issues.map (·.kind)
  fits : σ.Fits w.graph

/-- Results that are related on both workbenches, or a misuse on both. -/
inductive Agrees {α β : Type} (σ : Renaming) (R : α → β → Prop) :
    EStateM.Result Fault Workbench α → EStateM.Result Fault Workbench β → Prop where
  | ok {a : α} {b : β} {w v : Workbench} (hr : R a b) (h : Bench σ w v) :
    Agrees σ R (.ok a w) (.ok b v)
  | error {e e' : Misuse} {w v : Workbench} :
    Agrees σ R (.error (.misuse e) w) (.error (.misuse e') v)

theorem Agrees.split {α β : Type} {σ : Renaming} {R : α → β → Prop}
    {x : EStateM.Result Fault Workbench α} {y : EStateM.Result Fault Workbench β}
    (h : Agrees σ R x y) :
    (∃ e e' w v, x = .error (.misuse e) w ∧ y = .error (.misuse e') v)
      ∨ ∃ a b w v, x = .ok a w ∧ y = .ok b v ∧ R a b ∧ Bench σ w v := by
  cases h with
  | ok hr h => exact Or.inr ⟨_, _, _, _, rfl, rfl, hr, h⟩
  | error => exact Or.inl ⟨_, _, _, _, rfl, rfl⟩

variable {σ : Renaming} {w v w' v' : Workbench}

/-- Two workbenches after a step that has changed their graphs alike. -/
theorem Bench.next (h : σ.Bench w v) (hgraph : v'.graph = σ.graph w'.graph)
    (hfits : σ.Fits w'.graph) (hw : w'.analysis = w.analysis ∧ w'.issues = w.issues)
    (hv : v'.analysis = v.analysis ∧ v'.issues = v.issues) : σ.Bench w' v' where
  graph := hgraph
  analysis := by rw [hv.1, hw.1, h.analysis]
  forward := by rw [hw.1, h.forward]
  issues := by rw [hv.2, hw.2, h.issues]
  fits := hfits

theorem Bench.alike (h : σ.Bench w v) (hw : w.Alike w') (hv : v.Alike v') : σ.Bench w' v' :=
  h.next (by rw [hw.graph, hv.graph, h.graph]) (hw.graph ▸ h.fits) ⟨hw.analysis, hw.issues⟩
    ⟨hv.analysis, hv.issues⟩

/-! ## Facts -/

section Stages

variable {P : Platform} {g₀ h₀ : Graph} {s : Stage}

/-- Two workbenches with sound graphs that differ by their numbering only. -/
structure Twins (σ : Renaming) (P : Platform) (g₀ h₀ : Graph) (w v : Workbench) : Prop where
  bench : σ.Bench w v
  sound : g₀.Sound P w.graph
  sound' : h₀.Sound P v.graph
  machine : P.machine = w.analysis.machine

/-- Two workbenches that can go on to a stage. -/
structure Ready (σ : Renaming) (P : Platform) (g₀ h₀ : Graph) (w v : Workbench) : Prop
    extends σ.Twins P g₀ h₀ w v where
  informed : w.Informed
  informed' : v.Informed

theorem Ready.left (h : σ.Ready P g₀ h₀ w v) : w.Ready P g₀ := ⟨h.sound, h.informed, h.machine⟩

theorem Ready.right (h : σ.Ready P g₀ h₀ w v) : v.Ready P h₀ :=
  ⟨h.sound', h.informed', h.machine.trans (by rw [h.bench.analysis])⟩

end Stages

/-! ## The stages in a row -/

section Rows

open Pipeline

variable {P : Platform} {g₀ h₀ : Graph} {s : Stage}

/-- Two workbenches on which the next stage can start. -/
structure Paired (σ : Renaming) (P : Platform) (g₀ h₀ : Graph) (w v : Workbench) : Prop where
  bench : σ.Bench w v
  left : Steady P g₀ w
  right : Steady P h₀ v

theorem Paired.ready (h : σ.Paired P g₀ h₀ w v) : σ.Ready P g₀ h₀ w v where
  bench := h.bench
  sound := h.left.sound
  sound' := h.right.sound
  machine := h.left.machine
  informed := h.left.informed
  informed' := h.right.informed

end Rows

end Untangle.Renaming
