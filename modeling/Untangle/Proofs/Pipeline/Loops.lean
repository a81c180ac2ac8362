/-
  Untangle.Proofs.Pipeline.Loops

  The loops that are reported of a method. They are counted on the graph as the stages leave it,
  before branches are pointed at live instructions. While every block still begins with the
  instruction that its label is the uid of, the count is that of the method that is written out,
  and of the graph that is built of it (`Method.normalize_counts_loops`).
-/
import Untangle.Proofs.Graph.Loops
import Untangle.Proofs.Pipeline.Behaviour

namespace Untangle

open Graph

/-! ## Edges through the stages -/

/-- A run of any stage but the last one lists no successor twice. -/
theorem Stage.run_unrepeated {s : Stage} {w w' : Workbench} {n : Nat}
    (hkind : s.kind ≠ .exceptionReconciler) (h : w.graph.Formed) (hlinked : w.graph.Linked)
    (hunrepeated : w.graph.Unrepeated) (hrun : s.run.run w = .ok n w') :
    w'.graph.Unrepeated := by
  rcases run_eq_ok hkind h hlinked hrun with ⟨-, facts, hgraph, -⟩ | ⟨-, hgraph, -⟩
    | ⟨-, hgraph, -⟩
  all_goals
    rw [hgraph]
    exact hunrepeated.edited _

/-! ## Pointing branches at live instructions -/

/-- Backward branches depend on uids and targets only. -/
theorem backward_map {code : List Instruction} {f : Instruction → Instruction}
    (huid : ∀ ins, (f ins).uid = ins.uid) (hbranch : ∀ ins, (f ins).isBranch = ins.isBranch)
    (htargets : ∀ ins ∈ code, ∀ t, t ∈ (f ins).targetUids ↔ t ∈ ins.targetUids) (u t : Int) :
    Backward (code.map f) u t ↔ Backward code u t := by
  have huids (front : List Instruction) (ins : Instruction) :
      (front.map f ++ [f ins]).map (·.uid) = (front ++ [ins]).map (·.uid) := by
    rw [← List.map_singleton, ← List.map_append, List.map_map]
    exact List.map_congr_left fun i _ => huid i
  constructor
  · rintro ⟨front', i, rest', hsplit, hbranch', hu, ht, hbefore⟩
    obtain ⟨front, behind, rfl, rfl, hbehind⟩ := List.map_eq_append_iff.mp hsplit
    obtain ⟨ins, rest, rfl, rfl, rfl⟩ := List.map_eq_cons_iff.mp hbehind
    have hins : ins ∈ front ++ ins :: rest := List.mem_append_right _ List.mem_cons_self
    exact ⟨front, ins, rest, rfl, hbranch ins ▸ hbranch', huid ins ▸ hu,
      (htargets ins hins t).mp ht, huids front ins ▸ hbefore⟩
  · rintro ⟨front, ins, rest, rfl, hbranch', hu, ht, hbefore⟩
    have hins : ins ∈ front ++ ins :: rest := List.mem_append_right _ List.mem_cons_self
    refine ⟨front.map f, f ins, rest.map f, by rw [List.map_append, List.map_cons],
      (hbranch ins).trans hbranch', (huid ins).trans hu, (htargets ins hins t).mpr ht, ?_⟩
    rw [huids]
    exact hbefore

namespace Graph

variable {g : Graph}

/-- While blocks begin with their own instructions, a label is live behind itself. -/
theorem FirstLabels.liveTarget? (hfirst : g.FirstLabels) (h : g.Formed) {l : Int}
    (hl : l ∈ g.labels) : g.liveTarget? l = some l := by
  obtain ⟨b, hb, rfl⟩ := List.mem_map.mp hl
  obtain ⟨first, rest, hcode, huid⟩ := hfirst _ (mem_outline_of_mem hb)
  rw [h.liveTarget?_first hb hcode, huid]

/-- While blocks begin with their own instructions, no branch is pointed elsewhere. -/
theorem FirstLabels.backward_relink (hfirst : g.FirstLabels) (h : g.Formed) (u t : Int) :
    Backward (g.code.map g.relinkInstruction) u t ↔ Backward g.code u t := by
  refine backward_map g.relinkInstruction_uid (fun ins => ?_) (fun ins hins t => ?_) u t
  · unfold Instruction.isBranch
    rw [g.relinkInstruction_opcode]
  · have hsame : ∀ v ∈ ins.aims, (g.relinkTarget v).wholeNumber? = v.wholeNumber? := by
      intro v hv
      obtain ⟨l, hl, hnames⟩ := h.aims hins hv
      rw [relinkTarget_of_live hnames (hfirst.liveTarget? h hl), hnames]
    rw [Instruction.mem_targetUids, Instruction.mem_targetUids, h.aims_relink hins]
    constructor
    · rintro ⟨v', hv', hnames⟩
      obtain ⟨v, hv, rfl⟩ := List.mem_map.mp hv'
      exact ⟨v, hv, hsame v hv ▸ hnames⟩
    · rintro ⟨v, hv, hnames⟩
      exact ⟨_, List.mem_map_of_mem hv, (hsame v hv).trans hnames⟩

/-- The blocks of a graph whose exits are brought up to date. -/
theorem reconciled_blocks (h : g.Formed) :
    (Reconcile.reconciled g).blocks = (g.mapCode (Reconcile.exitMoved g)).blocks := by
  unfold Reconcile.reconciled Reconcile.regionsMoved
  rw [Reconcile.exitsMoved_eq h]

/-- Blocks that begin with their own instructions then did before. -/
theorem FirstLabels.of_reconciled (h : g.Formed)
    (hfirst : (Reconcile.reconciled g).FirstLabels) : g.FirstLabels := by
  have houtline : (Reconcile.reconciled g).outline
      = (g.mapCode (Reconcile.exitMoved g)).outline := by
    rw [outline, reconciled_blocks h]
    rfl
  intro e he
  obtain ⟨first', rest', hmoved, huid⟩ := hfirst (e.1, e.2.map (Reconcile.exitMoved g)) (by
    rw [houtline, mapCode_outline]
    exact List.mem_map_of_mem he)
  obtain ⟨first, rest, hcode, rfl, -⟩ := List.map_eq_cons_iff.mp hmoved
  exact ⟨first, rest, hcode, (Reconcile.exitMoved_uid g first).symm.trans huid⟩

/-- While blocks begin with their own instructions, no exit moves. -/
theorem FirstLabels.backEdges_reconciled (hfirst : g.FirstLabels) (h : g.Formed) :
    (Reconcile.reconciled g).backEdges = g.backEdges := by
  have hstays : ∀ ins ∈ g.code, Reconcile.exitMoved g ins = ins := by
    intro ins hins
    unfold Reconcile.exitMoved
    split
    · rename_i live tooFar hfate
      obtain ⟨record, hrecord, hlive, hnew⟩ := Reconcile.exitFate_kept hfate
      obtain ⟨-, hnone | ⟨l, hlabel, hl⟩⟩ := Reconcile.exit_target h hins hrecord
      · rw [Operand.eq_of_isNone hnone] at hlive
        cases hlive
      · rw [hl, Option.bind_some, hfirst.liveTarget? h hlabel, Option.some.injEq] at hlive
        rw [hl, hlive] at hnew
        simp at hnew
    · rfl
  have hblocks : (Reconcile.reconciled g).blocks = g.blocks := by
    rw [reconciled_blocks h]
    refine (List.map_congr_left fun b hb => ?_).trans (List.map_id _)
    have hcode : b.code.map (Reconcile.exitMoved g) = b.code :=
      (List.map_congr_left fun ins hins =>
        hstays ins (mem_code_of_mem (mem_outline_of_mem hb) hins)).trans (List.map_id _)
    rw [hcode]
    rfl
  unfold backEdges backEdgesOf labelsBehind labels
  rw [hblocks]

end Graph

/-! ## The count -/

namespace Pipeline

variable {P : Platform} {w w' : Workbench} {settings : Settings}
  {changes : List (String × Nat)}

/-- The stages list no successor twice. -/
theorem unrepeated_invariant (P : Platform) (g₀ : Graph) : Invariant P g₀ Unrepeated where
  pruned := Unrepeated.pruned
  run hkind hw h hrun := Stage.run_unrepeated hkind hw.sound.formed hw.sound.linked h hrun

/-- While blocks begin with their own instructions, the backward branches after the stages are
    those of the method that is written out. -/
theorem Worked.backEdges {m : Method} (hworked : Worked settings w changes w')
    (hsound : w.graph.Sound P w.graph) (hfacts : w.facts = none)
    (hmachine : settings.machine = .ok P.machine) (hP : P.terminators = w.graph.terminators)
    (hunrepeated : w.graph.Unrepeated) (hfirst : w'.graph.FirstLabels)
    (hm : m = w'.graph.relinked.toMethod) (hvalid : m.Valid) :
    (w'.graph.backEdges.map fun e => (e.branch, e.target)).Nodup
      ∧ (∀ p, p ∈ w'.graph.backEdges.map (fun e => (e.branch, e.target))
          ↔ Backward m.code p.1 p.2)
      ∧ (m.code.map (·.uid)).Nodup := by
  obtain ⟨early, w₁, w₂, changes₂, hearly, hgraph, hsteady, hrun, hsteady₂, hlast⟩ :=
    hworked.split hsound hfacts hmachine hP
  have hformed := hsteady₂.sound.formed
  have hkept : w₂.graph.Unrepeated := (unrepeated_invariant P w.graph).runStages
    (early_kind hearly) hP hsteady (hgraph ▸ hunrepeated.pruned) hrun
  have hlast' : .exceptionReconciler ∉ settings.activeKinds ∧ w'.graph = w₂.graph
      ∨ w'.graph = Reconcile.reconciled w₂.graph ∧ Reconcile.regionDefects w₂.graph = [] :=
    hlast.imp (fun h => ⟨h.1, h.2.1⟩) fun h => ⟨h.1, h.2.1⟩
  have hwritten := (written hformed hlast' hm hvalid).1
  -- The last stage leaves blocks that begin with their own instructions as they are.
  obtain ⟨hfirst₂, hsame⟩ : w₂.graph.FirstLabels ∧ w'.graph.backEdges = w₂.graph.backEdges := by
    rcases hlast' with ⟨-, heq⟩ | ⟨heq, -⟩
    · rw [heq] at hfirst ⊢
      exact ⟨hfirst, rfl⟩
    · rw [heq] at hfirst ⊢
      have hfirst₂ := FirstLabels.of_reconciled hformed hfirst
      exact ⟨hfirst₂, hfirst₂.backEdges_reconciled hformed⟩
  obtain ⟨hnodup, hexact⟩ := hfirst₂.backEdges_exact hformed hsteady₂.sound.linked hkept
  rw [hsame]
  refine ⟨hnodup, fun p => (hexact p).trans ?_, hwritten.uids_nodup hformed⟩
  rw [hwritten.code]
  exact (hfirst₂.backward_relink hformed p.1 p.2).symm

end Pipeline

namespace Method

open Pipeline

variable {m : Method} {settings : Settings}

/-- The loops that are reported of a method that is rewritten are the backward branches of the
    graph that the stages have left. While its blocks begin with their own instructions, there are
    as many in the graph that is built of the result. -/
theorem normalize_counts_loops (hnodup : (m.code.map (·.uid)).Nodup)
    (h : (m.normalize settings).rewritten = true) :
    ∃ g changes w, Graph.build m.copy settings.terminators = .ok g
      ∧ Worked settings { graph := g, analysis := {}, method := m.name } changes w
      ∧ (m.normalize settings).loopsDetected = w.graph.backEdges.length
      ∧ (w.graph.FirstLabels → ∀ r,
          Graph.build (m.normalize settings).body settings.terminators = .ok r →
          (m.normalize settings).loopsDetected = r.backEdges.length) := by
  obtain ⟨M, hmachine⟩ := machine_of_rewritten hnodup h
  obtain ⟨g, w', hbuild, hwork⟩ := normalize_eq h
  have hcopy := copy_nodup hnodup
  obtain ⟨hformed, hlinked⟩ := Graph.build_formed hbuild hcopy
  obtain ⟨changes, w, hworked, hfinish⟩ := work_finished hformed hlinked hwork
  obtain ⟨-, -, hloops, ⟨-, hnot, -⟩ | ⟨-, -, -, hbody, hvalid⟩⟩ := finish_eq_ok hfinish
  · rw [h] at hnot
    cases hnot
  refine ⟨g, changes, w, hbuild, hworked, hloops, fun hfirst r hr => ?_⟩
  let P : Platform := ⟨M, default, settings.terminators⟩
  obtain ⟨hdistinct, hexact, hbodyUids⟩ := hworked.backEdges (P := P)
    (build_sound P hbuild hcopy) rfl hmachine (Graph.build_terminators hbuild).symm
    (build_unrepeated hbuild) hfirst hbody hvalid
  obtain ⟨hdistinct', hexact'⟩ := Graph.build_backEdges hr hbodyUids
  have hperm := (List.perm_ext_iff_of_nodup hdistinct hdistinct').mpr fun p =>
    (hexact p).trans (hexact' p).symm
  have hlength := hperm.length_eq
  rw [List.length_map, List.length_map] at hlength
  rw [hloops, hlength]

end Method

end Untangle
