/-
  Untangle.Proofs.Stage.Underway

  The graphs that come up between a method and its replacement: the graph of the method, what
  pruning and the stages make of it, and what the last stage and relinking make of that
  (`Graph.Arrives`). Up to the last stage the blocks are made of those of the graph of the
  method (`Underway.traced`). What the steps need of a graph to go on holds to the end
  (`Arrives.sturdy`).
-/
import Untangle.Proofs.Graph.Covered
import Untangle.Proofs.Stage.Run
import Untangle.Proofs.Validate

namespace Untangle

/-! ## Steps -/

/-- A step on the way from the graph of a method to its replacement. -/
inductive Deed where
  | removeUnreachable
  | merge
  | prune
  | stage (s : Stage)

namespace Deed

/-- The work of a step, whatever it counts. -/
def work : Deed → Work Unit
  | removeUnreachable => do let _ ← Work.removeUnreachable
  | merge => do let _ ← Work.merge
  | prune => do let _ ← Work.prune
  | stage s => do let _ ← s.run

/-- The last stage comes after all these. -/
def IsEarly : Deed → Prop
  | stage s => s.kind ≠ .exceptionReconciler
  | _ => True

/-- Blocks go or are joined, and dispatches are resolved. -/
def IsTrim : Deed → Prop
  | stage s => s.kind = .switchResolver
  | _ => True

theorem IsTrim.isEarly {d : Deed} (h : d.IsTrim) : d.IsEarly := by
  cases d with
  | stage s =>
    show s.kind ≠ .exceptionReconciler
    rw [show s.kind = _ from h]
    decide
  | _ => trivial

end Deed

namespace Graph

/-- The graph of a method after any number of steps of the kinds that may be made. Each is made
    on a workbench with the graph on it, whatever else is there. -/
inductive Underway (m : Method) (terminators : List Value) (may : Deed → Prop) : Graph → Prop where
  | built {g : Graph} (h : build m terminators = .ok g) : Underway m terminators may g
  | next {d : Deed} {w w' : Workbench} (h : Underway m terminators may w.graph) (hmay : may d)
      (hrun : d.work.run w = .ok () w') : Underway m terminators may w'.graph

/-- The graphs that come up on the way from a method to its replacement. The last stage runs
    once at most, and branches are pointed at live instructions at the end. -/
inductive Arrives (m : Method) (terminators : List Value) : Graph → Prop where
  | early {g : Graph} (h : Underway m terminators Deed.IsEarly g) : Arrives m terminators g
  | reconciled {w w' : Workbench} {n : Nat} (h : Underway m terminators Deed.IsEarly w.graph)
      (hrun : Stage.reconcile.run w = .ok n w') : Arrives m terminators w'.graph
  | relinked {w w' : Workbench} {n : Nat} (h : Arrives m terminators w.graph)
      (hrun : Work.relink.run w = .ok n w') : Arrives m terminators w'.graph

end Graph

/-! ## What the steps do to the stretches -/

/-- A run of any stage but the last rewrites each instruction in place. -/
theorem Stage.run_changed {s : Stage} {w w' : Workbench} {n : Nat}
    (hkind : s.kind ≠ .exceptionReconciler) (h : w.graph.Formed) (hlinked : w.graph.Linked)
    (hrun : s.run.run w = .ok n w') :
    ∃ edits number, Graph.Changed w.graph w'.graph edits number
      ∧ ∀ b ∈ w.graph.blocks, ∀ j ∈ b.code, Edit.Gentle (edits b) j := by
  rcases run_eq_ok hkind h hlinked hrun with ⟨-, facts, hgraph, -⟩ | ⟨-, hgraph, -⟩
    | ⟨-, hgraph, -⟩
  · obtain ⟨number, hchanged⟩ := h.changed hlinked (Dispatch.suits facts h)
    exact ⟨Dispatch.editsOf facts, number, hgraph ▸ hchanged, fun b hb j hj =>
      Dispatch.gentle (h.block_uids_nodup hb) hj⟩
  · obtain ⟨number, hchanged⟩ := h.changed hlinked (Junk.suits w.graph)
    exact ⟨Junk.edits, number, hgraph ▸ hchanged, fun b hb j hj =>
      Junk.gentle (h.block_uids_nodup hb) hj⟩
  · obtain ⟨number, hchanged⟩ := h.changed hlinked (Folder.suits (s.folder w) h)
    exact ⟨(s.folder w).edits, number, hgraph ▸ hchanged, fun b hb j hj =>
      Folder.gentle (s.folder w) (h.block_uids_nodup hb) hj⟩

namespace Graph

/-- An instruction that is no dispatch and does more than work on the top of the stack stays
    through mild edits. -/
theorem Changed.mem_of_leave {g g' : Graph} {edits : Block → List Edit} {number : Int → Int}
    (h : Changed g g' edits number)
    (hgentle : ∀ b ∈ g.blocks, ∀ j ∈ b.code, Edit.Gentle (edits b) j) {ins : Instruction}
    (hins : ins ∈ g.code) (hop : ins.opcode = some .leave) : ins ∈ g'.code := by
  obtain ⟨b, hb, hin⟩ := List.mem_flatMap.mp hins
  have hkept : Edit.outcome (edits b) number ins = [ins] := by
    have hrewritten := (hgentle b hb ins hin).rewritten h.fresh
    generalize Edit.outcome (edits b) number ins = js at hrewritten
    cases hrewritten with
    | kept => rfl
    | dropped hdrop =>
      unfold Instruction.isDroppable at hdrop
      rw [hop] at hdrop
      cases hdrop
    | constant v hfold => rcases hfold with hfold | hfold <;> rw [hop] at hfold <;> cases hfold
    | branch t hswitch => rw [hop] at hswitch; cases hswitch
    | discard t u hswitch => rw [hop] at hswitch; cases hswitch
  rw [← Outline.code_outline, h.outline, Edit.code_replace, Outline.code_outline]
  refine List.mem_flatMap.mpr ⟨ins, hins, ?_⟩
  rw [h.each b hb ins hin, hkept]
  exact List.mem_singleton_self _

/-- Every recorded exit is there. -/
def Recorded (g : Graph) : Prop := ∀ r ∈ g.exits, ∃ ins ∈ g.code, ins.uid = r.uid

theorem build_recorded {m : Method} {terminators : List Value} {g : Graph}
    (h : build m terminators = .ok g) : g.Recorded := by
  intro r hr
  rw [build_code h]
  obtain ⟨ranges, exits, haccepts, rfl⟩ := build_eq_ok.mp h
  obtain ⟨ins, hins, place, hok⟩ := haccepts.exists_exit hr
  exact ⟨ins, hins, (exitRecord_eq_some hok).2.1.symm⟩

theorem Recorded.removeUnreachable {g : Graph} (h : g.Recorded) :
    g.removeUnreachable.Recorded := by
  intro r hr
  obtain ⟨hmem, hleft⟩ := List.mem_filter.mp hr
  obtain ⟨ins, hins, huid⟩ := h r hmem
  refine ⟨ins, ?_, huid⟩
  obtain ⟨b, hb, hin⟩ := List.mem_flatMap.mp hins
  have hlive : g.isLive b.label = true := by
    by_contra hdead
    have hgone : r.uid ∈ (g.unreachable.flatMap (·.code)).map (·.uid) :=
      List.mem_map.mpr ⟨ins, List.mem_flatMap.mpr ⟨b, List.mem_filter.mpr
        ⟨hb, by simpa [isLive] using hdead⟩, hin⟩, huid⟩
    rw [List.contains_iff_mem.mpr hgone] at hleft
    cases hleft
  have hmem' : (b.label, b.code) ∈ g.removeUnreachable.outline := by
    rw [removeUnreachable_outline]
    exact List.mem_filter.mpr ⟨mem_outline_of_mem hb, hlive⟩
  exact mem_code_of_mem hmem' hin

theorem Recorded.merged {g : Graph} (h : g.Recorded) : g.merged.Recorded := by
  rw [merged_eq]
  split
  · exact h
  · intro r hr
    rw [connected_code, rejoined_code]
    exact h r hr

/-- What a step makes of the graph. -/
theorem Formed.graph_of_run {d : Deed} {w w' : Workbench} (h : w.graph.Formed)
    (hlinked : w.graph.Linked) (hrun : d.work.run w = .ok () w') :
    (d = .removeUnreachable ∧ (w'.graph = w.graph ∨ w'.graph = w.graph.removeUnreachable))
      ∨ (d = .merge ∧ w'.graph = w.graph.merged)
      ∨ (d = .prune ∧ w'.graph = w.graph.pruned)
      ∨ ∃ s n, d = .stage s ∧ s.run.run w = .ok n w' := by
  cases d with
  | removeUnreachable =>
    obtain ⟨dead, w₁, hstep, hrest⟩ := Work.bind_eq_ok.mp hrun
    obtain ⟨-, rfl⟩ := Work.pure_eq_ok.mp hrest
    obtain ⟨w₂, hstep', halike⟩ := Work.removeUnreachable_run h hlinked
    rw [hstep] at hstep'
    cases hstep'
    refine Or.inl ⟨rfl, ?_⟩
    rw [halike.graph]
    dsimp only
    split
    · exact Or.inl rfl
    · exact Or.inr rfl
  | merge =>
    obtain ⟨gone, w₁, hstep, hrest⟩ := Work.bind_eq_ok.mp hrun
    obtain ⟨-, rfl⟩ := Work.pure_eq_ok.mp hrest
    obtain ⟨w₂, hstep', halike⟩ := Work.merge_run h
    rw [hstep] at hstep'
    cases hstep'
    exact Or.inr (Or.inl ⟨rfl, halike.graph⟩)
  | prune =>
    obtain ⟨dead, w₁, hstep, hrest⟩ := Work.bind_eq_ok.mp hrun
    obtain ⟨-, rfl⟩ := Work.pure_eq_ok.mp hrest
    obtain ⟨w₂, hstep', halike⟩ := Work.prune_run h hlinked
    rw [hstep] at hstep'
    cases hstep'
    exact Or.inr (Or.inr (Or.inl ⟨rfl, halike.graph⟩))
  | stage s =>
    obtain ⟨n, w₁, hstep, hrest⟩ := Work.bind_eq_ok.mp hrun
    obtain ⟨-, rfl⟩ := Work.pure_eq_ok.mp hrest
    exact Or.inr (Or.inr (Or.inr ⟨s, n, rfl, hstep⟩))

/-- Each step carries on what the blocks are made of, and the recorded exits stay. -/
theorem Traced.work {g₀ : Graph} {T : List Stretch} {f : Instruction → List Instruction}
    {w w' : Workbench} {d : Deed} (h : Traced g₀ w.graph T f) (hrecorded : w.graph.Recorded)
    (hearly : d.IsEarly) (hrun : d.work.run w = .ok () w') :
    (∃ T' f', Traced g₀ w'.graph T' f') ∧ w'.graph.Recorded := by
  rcases h.formed.graph_of_run h.linked hrun with ⟨-, hsame | hgone⟩ | ⟨-, hmerged⟩
    | ⟨-, hpruned⟩ | ⟨s, n, rfl, hstep⟩
  · rw [hsame]
    exact ⟨⟨T, f, h⟩, hrecorded⟩
  · rw [hgone]
    exact ⟨⟨_, f, h.removeUnreachable⟩, hrecorded.removeUnreachable⟩
  · rw [hmerged]
    obtain ⟨T', hT'⟩ := h.merged
    exact ⟨⟨T', f, hT'⟩, hrecorded.merged⟩
  · rw [hpruned]
    obtain ⟨T', hT'⟩ := h.pruned
    refine ⟨⟨T', f, hT'⟩, ?_⟩
    unfold Graph.pruned
    split
    · exact hrecorded
    · exact hrecorded.removeUnreachable.merged
  · obtain ⟨edits, number, hchanged, hgentle⟩ :=
      Stage.run_changed hearly h.formed h.linked hstep
    refine ⟨⟨T, _, h.changed hchanged hgentle⟩, fun r hr => ?_⟩
    rw [hchanged.reworked.exits] at hr
    obtain ⟨ins, hins, huid⟩ := hrecorded r hr
    exact ⟨ins, hchanged.mem_of_leave hgentle hins ((h.formed.exits r hr).2 ins hins huid), huid⟩

variable {m : Method} {terminators : List Value} {may : Deed → Prop} {g : Graph}

/-- Up to the last stage the blocks are made of those of the graph of the method, and the
    recorded exits are there. -/
theorem Underway.traced (h : Underway m terminators may g) (hearly : ∀ d, may d → d.IsEarly)
    (huids : (m.code.map (·.uid)).Nodup) :
    ∃ g₀, build m terminators = .ok g₀ ∧ (∃ T f, Traced g₀ g T f) ∧ g.Recorded := by
  induction h with
  | @built g hbuild =>
    obtain ⟨hformed, hlinked⟩ := build_formed hbuild huids
    refine ⟨g, hbuild, ⟨_, _, Traced.start hformed hlinked fun s hs => ?_⟩,
      build_recorded hbuild⟩
    obtain ⟨htries, hhandlers⟩ := build_ranged hbuild huids s hs
    exact ⟨htries.subset, hhandlers.subset⟩
  | next _ hmay hrun ih =>
    obtain ⟨g₀, hbuild, ⟨T, f, htraced⟩, hrecorded⟩ := ih
    exact ⟨g₀, hbuild, htraced.work hrecorded (hearly _ hmay) hrun⟩

/-! ## What the steps need -/

/-- What pruning and resolving dispatches need of a graph, besides edges. -/
structure Sturdy (g : Graph) : Prop extends g.Numbered where
  /-- An instruction that gives a label its number is in the block of the label. -/
  own : ∀ e ∈ g.outline, ∀ ins ∈ e.2, ins.uid ∈ g.labels → ins.uid = e.1
  straight : ∀ e ∈ g.outline, ∀ ins ∈ e.2.dropLast, ins.endsRun g.terminators = false
  followed : ∀ ins ∈ g.code, ins.checkTargets = .ok ()
  ranged : ∀ s ∈ g.spans, s.tryBlocks ⊆ g.labels ∧ s.handlerBlocks ⊆ g.labels
  handlers : ∀ s ∈ g.spans, s.handlerBlocks <:+: g.labels
  recorded : g.Recorded

theorem Traced.sturdy {g₀ : Graph} {T : List Stretch} {f : Instruction → List Instruction}
    (h : Traced g₀ g T f) (hrecorded : g.Recorded) : g.Sturdy where
  toNumbered := h.formed.numbered
  own := h.formed.own
  straight := h.formed.straight
  followed _ hins := h.formed.checkTargets hins
  ranged s hs := by
    rw [h.spans] at hs
    obtain ⟨s, -, rfl⟩ := List.mem_map.mp hs
    exact ⟨fun l hl => by simpa using (List.mem_filter.mp hl).2,
      fun l hl => by simpa using (List.mem_filter.mp hl).2⟩
  handlers := h.formed.handlers
  recorded := hrecorded

/-- Nothing of this depends on where branches lead, or on where the regions are. -/
theorem Sturdy.mapCode (h : g.Sturdy) {f : Instruction → Instruction} (spans : List Span)
    (huid : ∀ ins, (f ins).uid = ins.uid)
    (hends : ∀ ins, (f ins).endsRun g.terminators = ins.endsRun g.terminators)
    (hcheck : ∀ ins ∈ g.code, (f ins).checkTargets = .ok ())
    (hspans : ∀ s ∈ spans, ∃ s' ∈ g.spans, s.tryBlocks = s'.tryBlocks
      ∧ s.handlerBlocks = s'.handlerBlocks) :
    ({ g.mapCode f with spans } : Graph).Sturdy := by
  have hlabels : ({ g.mapCode f with spans } : Graph).labels = g.labels := mapCode_labels g f
  have hcode : ({ g.mapCode f with spans } : Graph).code = g.code.map f := mapCode_code g f
  have houtline : ({ g.mapCode f with spans } : Graph).outline
      = g.outline.map fun e => (e.1, e.2.map f) := mapCode_outline g f
  refine ⟨⟨hlabels ▸ h.labels_nodup, ?_, ?_⟩, ?_, ?_, ?_, ?_, ?_, ?_⟩
  · rw [hcode, List.map_map, show (·.uid) ∘ f = (·.uid) from funext huid]
    exact h.uids_nodup
  · rw [hcode]
    exact List.forall_mem_map.mpr fun ins hins => (huid ins).symm ▸ h.uids_fresh ins hins
  · rw [houtline, hlabels]
    refine List.forall_mem_map.mpr fun e he => List.forall_mem_map.mpr fun ins hins => ?_
    rw [huid]
    exact h.own e he ins hins
  · rw [houtline]
    refine List.forall_mem_map.mpr fun e he => ?_
    rw [← List.map_dropLast]
    exact List.forall_mem_map.mpr fun ins hins => (hends ins).trans (h.straight e he ins hins)
  · rw [hcode]
    exact List.forall_mem_map.mpr hcheck
  · rw [hlabels]
    intro s hs
    obtain ⟨s', hs', htries, hhandlers⟩ := hspans s hs
    rw [htries, hhandlers]
    exact h.ranged s' hs'
  · rw [hlabels]
    intro s hs
    obtain ⟨s', hs', -, hhandlers⟩ := hspans s hs
    rw [hhandlers]
    exact h.handlers s' hs'
  · intro r hr
    obtain ⟨ins, hins, hrecord⟩ := h.recorded r hr
    exact ⟨f ins, hcode ▸ List.mem_map_of_mem hins, (huid ins).trans hrecord⟩

theorem Sturdy.relinked (h : g.Sturdy) : g.relinked.Sturdy := by
  rw [relinked_eq h.followed]
  refine h.mapCode g.spans g.relinkInstruction_uid (fun ins => ?_)
    (fun ins hins => Instruction.checkTargets_retarget g.relinkTarget_isKey (h.followed ins hins))
    fun s hs => ⟨s, hs, rfl, rfl⟩
  exact Instruction.retarget_endsRun _ _ _

open Reconcile in
theorem Sturdy.reconciled (h : g.Sturdy) (hformed : g.Formed) : (reconciled g).Sturdy := by
  unfold Reconcile.reconciled regionsMoved
  rw [exitsMoved_eq hformed]
  refine h.mapCode _ (exitMoved_uid g) (fun ins => ?_) (fun ins hins => ?_) fun s' hs' => ?_
  · unfold exitMoved
    split <;> rfl
  · exact exitMoved_checkTargets hformed hins
  · obtain ⟨s, hs, rfl⟩ := List.mem_map.mp hs'
    refine ⟨s, hs, ?_⟩
    unfold moved?
    split
    · dsimp only
      split <;> exact ⟨rfl, rfl⟩
    · exact ⟨rfl, rfl⟩

/-- What pruning and resolving dispatches need holds of every graph on the way. -/
theorem Arrives.sturdy (h : Arrives m terminators g) (huids : (m.code.map (·.uid)).Nodup) :
    g.Sturdy := by
  induction h with
  | early h =>
    obtain ⟨g₀, -, ⟨T, f, htraced⟩, hrecorded⟩ := h.traced (fun _ => id) huids
    exact htraced.sturdy hrecorded
  | reconciled h hrun =>
    obtain ⟨g₀, -, ⟨T, f, htraced⟩, hrecorded⟩ := h.traced (fun _ => id) huids
    obtain ⟨w₁, hrun', halike⟩ := Stage.reconcile_run htraced.formed
    rw [hrun] at hrun'
    cases hrun'
    rw [halike.graph]
    exact (htraced.sturdy hrecorded).reconciled htraced.formed
  | relinked _ hrun ih =>
    rw [Work.relink_eq_ok hrun]
    exact ih.relinked

end Graph

end Untangle
