/-
  Untangle.Proofs.Stage.Recut

  Joining blocks and cutting afresh. However a graph has come out of a method by taking out
  blocks, joining blocks and resolving dispatches, joining its blocks leaves them where cutting
  its own method into blocks would put them (`Work.merge_recut`). What the method needs to be
  cut holds of the graph because it held of the first one.
-/
import Untangle.Proofs.Graph.SameCut
import Untangle.Proofs.Stage.Underway
import Untangle.Proofs.Stage.Weight

namespace Untangle

/-- Exits and instructions without a kind of their own are not made by rewriting. -/
theorem Instruction.Rewritten.eq_of_opcode {fresh : Int} {ins j : Instruction}
    {js : List Instruction} (h : ins.Rewritten fresh js) (hj : j ∈ js)
    (hop : j.opcode = some .leave ∨ j.opcode = some .other) : j = ins := by
  have hmade (opcode : Opcode) (hj : j.opcode = some opcode)
      (hnot : opcode ≠ .leave ∧ opcode ≠ .other) : j = ins := by
    rw [hj] at hop
    rcases hop with hop | hop
    · exact absurd (Option.some.inj hop) hnot.1
    · exact absurd (Option.some.inj hop) hnot.2
  cases h with
  | kept => exact List.mem_singleton.mp hj
  | dropped => cases hj
  | constant v =>
    rw [List.mem_singleton] at hj
    exact hmade .pushConst (by rw [hj]; rfl) (by decide)
  | branch t =>
    rw [List.mem_singleton] at hj
    exact hmade .branch (by rw [hj]; rfl) (by decide)
  | discard t u =>
    rcases List.mem_cons.mp hj with hj | hj
    · exact hmade .pop (by rw [hj]) (by decide)
    · rw [List.mem_singleton] at hj
      exact hmade .branch (by rw [hj]; rfl) (by decide)

namespace Graph

variable {m : Method} {terminators : List Value} {may : Deed → Prop} {g₀ g : Graph}
  {T : List Stretch} {f : Instruction → List Instruction}

/-! ## What the first graph leaves behind -/

/-- Mnemonics that are looked up can be looked up to the end. -/
theorem Traced.mnemonics (h : Traced g₀ g T f) (hbuild : build m terminators = .ok g₀) :
    ∀ ins ∈ g.code, ins.opcode = some .other → ins.mnemonic.isKey = true := by
  intro j hj hop
  obtain ⟨r, hr, ins, hins, hin, hrewritten⟩ := h.exists_source hj
  obtain rfl := hrewritten.eq_of_opcode hin (Or.inr hop)
  have hmem := h.mem_code₀ hr hins
  rw [build_code hbuild] at hmem
  obtain ⟨ranges, exits, haccepts, -⟩ := build_eq_ok.mp hbuild
  exact (checkFlow_eq_ok.mp (haccepts.flows j hmem)).2 hop

/-- The blocks that are left of a range are in a row. -/
theorem Traced.tries (h : Traced g₀ g T f) (hbuild : build m terminators = .ok g₀)
    (huids : (m.code.map (·.uid)).Nodup) : ∀ s ∈ g.spans, s.tryBlocks <:+: g.labels := by
  rw [h.spans]
  exact List.forall_mem_map.mpr fun s hs =>
    h.run_left (build_formed hbuild huids).1 (build_ranged hbuild huids s hs).1

/-- An exit in a block of a region was in the region. -/
theorem Traced.leaves (h : Traced g₀ g T f) (hbuild : build m terminators = .ok g₀)
    (huids : (m.code.map (·.uid)).Nodup) :
    ∀ b ∈ g.blocks, ∀ ins ∈ b.code, ins.opcode = some .leave → ∀ s ∈ g.spans,
      b.label ∈ s.tryBlocks ∨ b.label ∈ s.handlerBlocks → ins.operand.toValue.asInt?.isSome := by
  intro b hb j hj hop s hs hin
  have hmem := mem_outline_of_mem hb
  rw [h.outline] at hmem
  obtain ⟨r, hr, heq⟩ := List.mem_map.mp hmem
  obtain ⟨hlabel, hcode⟩ := Prod.mk.inj heq
  rw [← hcode] at hj
  obtain ⟨ins, hins, hj⟩ := List.mem_flatMap.mp hj
  obtain rfl := (h.rewritten r hr ins hins).eq_of_opcode hj (Or.inl hop)
  -- The block that it was in at first lies in the same ranges.
  obtain ⟨e, he, hat⟩ := List.mem_flatMap.mp hins
  rw [h.spans] at hs
  obtain ⟨s₀, hs₀, rfl⟩ := List.mem_map.mp hs
  have htogether := h.regions r hr e he s₀ hs₀
  have hrange : e.1 ∈ s₀.tryBlocks ∨ e.1 ∈ s₀.handlerBlocks := by
    rw [← hlabel] at hin
    exact hin.imp (fun hin => htogether.1.mp (List.mem_of_mem_filter hin))
      (fun hin => htogether.2.mp (List.mem_of_mem_filter hin))
  obtain ⟨i, hi⟩ := List.mem_iff_getElem?.mp hs₀
  have hregion : m.regions[i]? = some s₀.region := by
    rw [← build_regions hbuild, List.getElem?_map, hi]
    rfl
  obtain ⟨s₁, a, b', c, d, hs₁, -, hrangeOf, htries, hhandlers⟩ :=
    build_covers hbuild huids hregion
  rw [hi] at hs₁
  cases hs₁
  have he₀ := h.mem_outline₀ hr he
  have hcode₀ : j ∈ m.code := by
    rw [← build_code hbuild]
    exact mem_code_of_mem he₀ hat
  obtain ⟨q, hq⟩ := List.mem_iff_getElem?.mp hcode₀
  have hplace : Method.place? m.code j.uid = some q :=
    (place?_eq_some huids).mpr ⟨(List.getElem?_eq_some_iff.mp hq).1, labelAt_eq hq⟩
  refine build_leave hbuild hq hop ⟨s₀.region, List.mem_of_getElem? hregion, a, b', c, d, hrangeOf,
    ?_⟩
  exact hrange.imp (htries.inside e he₀ j hat q hplace).mp
    (hhandlers.inside e he₀ j hat q hplace).mp

/-- No step that takes out blocks, joins blocks or resolves dispatches empties a block. -/
theorem Underway.filled (h : Underway m terminators Deed.IsTrim g)
    (huids : (m.code.map (·.uid)).Nodup) : g.Filled := by
  induction h with
  | built hbuild => exact (build_firstLabels hbuild).filled
  | @next d w w' h hmay hrun ih =>
    obtain ⟨g₀, -, ⟨T, f, htraced⟩, -⟩ := h.traced (fun _ => Deed.IsTrim.isEarly) huids
    have hformed := htraced.formed
    have hlinked := htraced.linked
    rcases hformed.graph_of_run hlinked hrun with ⟨-, hsame | hgone⟩ | ⟨-, hmerged⟩
      | ⟨-, hpruned⟩ | ⟨s, n, rfl, hstep⟩
    · exact hsame ▸ ih
    · exact hgone ▸ ih.removeUnreachable
    · exact hmerged ▸ ih.merged
    · exact hpruned ▸ ih.pruned
    · unfold Stage.run at hstep
      rw [show s.kind = .switchResolver from hmay] at hstep
      obtain ⟨facts, w₁, hfacts, -⟩ := Work.bind_eq_ok.mp hstep
      obtain ⟨w₂, hstep', halike⟩ := Stage.resolveSwitches_run hformed hfacts
      change Stage.resolveSwitches.run w = _ at hstep
      rw [hstep] at hstep'
      cases hstep'
      rw [halike.graph]
      exact Dispatch.resolved_filled hformed hlinked ih

/-! ## Cutting afresh -/

/-- Where blocks next to each other are apart for a reason, cutting the method of the graph
    gives the graph back, up to the names of blocks. -/
theorem Underway.recut (h : Underway m terminators Deed.IsTrim g)
    (huids : (m.code.map (·.uid)).Nodup)
    (hapart : ∀ before x y rest, g.blocks = before ++ x :: y :: rest → g.Apart x y) :
    ∃ r, build g.relinked.tightMethod terminators = .ok r ∧ SameCut g.liveUid g.relinked r := by
  obtain ⟨g₀, hbuild, ⟨T, f, htraced⟩, -⟩ := h.traced (fun _ => Deed.IsTrim.isEarly) huids
  have hterminators : g.terminators = terminators :=
    htraced.terminators.trans (build_terminators hbuild)
  have hfilled := h.filled huids
  have hkeys : ∀ t ∈ g.terminators, t.isKey = true := by
    obtain ⟨ranges, exits, haccepts, -⟩ := build_eq_ok.mp hbuild
    exact hterminators ▸ haccepts.keys
  have hwell := htraced.formed.relinked_wellCut hfilled hkeys (htraced.mnemonics hbuild)
    (htraced.tries hbuild huids) (htraced.leaves hbuild huids) hapart
  obtain ⟨r, hr⟩ := hwell.exists_build
  change build g.relinked.tightMethod g.terminators = .ok r at hr
  exact ⟨r, hterminators ▸ hr, htraced.formed.sameCut hfilled hwell hr htraced.linked⟩

end Graph

namespace Work

open Graph

variable {m : Method} {terminators : List Value}

/-- Joining the blocks of a graph that taking out blocks, joining blocks and resolving
    dispatches have made of a method succeeds. It leaves the code as it is, and the method that
    it becomes once branches are pointed at live instructions. The blocks that are left are those
    that this method is cut into, up to their names. -/
theorem merge_recut {w : Workbench} (huids : (m.code.map (·.uid)).Nodup)
    (h : Underway m terminators Deed.IsTrim w.graph) :
    ∃ w₁ w₂ r name, merge.run w = .ok w.graph.joinedLabels w₁
      ∧ w₁.graph.code = w.graph.code
      ∧ relink.run w₁ = .ok w₁.graph.relinkCount w₂
      ∧ w₂.graph = w₁.graph.relinked
      ∧ w₂.graph.tightMethod = w.graph.relinked.tightMethod
      ∧ build w₂.graph.tightMethod terminators = .ok r
      ∧ SameCut name w₂.graph r := by
  obtain ⟨g₀, hbuild, ⟨T, f, htraced⟩, -⟩ := h.traced (fun _ => Deed.IsTrim.isEarly) huids
  obtain ⟨w₁, hmerge, halike⟩ := merge_run htraced.formed
  have hgraph : w₁.graph = w.graph.merged := halike.graph
  obtain ⟨T', hmerged⟩ := htraced.merged
  rw [← hgraph] at hmerged
  obtain ⟨w₂, hrelink, hrelinked⟩ := relink_run hmerged.formed
  -- The graph after joining is one that comes up on the way, too.
  have hunderway : Underway m terminators Deed.IsTrim w₁.graph :=
    .next (d := .merge) h trivial (bind_eq_ok.mpr ⟨_, w₁, hmerge, rfl⟩)
  obtain ⟨r, hr, hsame⟩ := hunderway.recut huids fun before x y rest hblocks => by
    rw [hgraph] at hblocks ⊢
    exact htraced.formed.merged_apart htraced.linked hblocks
  have hmethod : w₁.graph.relinked.tightMethod = w.graph.relinked.tightMethod := by
    rw [hgraph] at hmerged ⊢
    exact htraced.formed.merged_tightMethod hmerged.formed (htraced.tries hbuild huids)
  refine ⟨w₁, w₂, r, w₁.graph.liveUid, hmerge, ?_, hrelink, hrelinked, ?_, ?_, ?_⟩
  · rw [hgraph, merged_code]
  · rw [hrelinked, hmethod]
  · rw [hrelinked]
    exact hr
  · rw [hrelinked]
    exact hsame

/-- A branch that nothing leads to leads to the last instruction. -/
def deadBranch : Method where
  code :=
    [{ opcode := some .branch, operand := .value (.int 2), uid := 0 },
     { opcode := some .branch, operand := .value (.int 3), uid := 1 },
     { opcode := some .nop, uid := 2 },
     { opcode := some .other, uid := 3, mnemonic := .str "ret" }]

/-- Its four blocks. -/
def deadBranchGraph : Graph where
  blocks :=
    [{ label := 0, code := [deadBranch.code[0]], succs := [2], isEntry := true },
     { label := 1, code := [deadBranch.code[1]], succs := [3] },
     { label := 2, code := [deadBranch.code[2]], succs := [3], preds := [0] },
     { label := 3, code := [deadBranch.code[3]], preds := [1, 2] }]
  terminators := Graph.usualTerminators
  fresh := 4

/-- Without the branch the last two blocks are one. -/
theorem merge_recut_deadBranch : ∃ (w w₁ w₂ : Workbench) (r : Graph) (name : Int → Int),
    removeUnreachable.run { graph := deadBranchGraph, analysis := {} } = .ok [1] w
      ∧ merge.run w = .ok [3] w₁
      ∧ w₂.graph = w₁.graph.relinked
      ∧ w₂.graph.tightMethod = w.graph.relinked.tightMethod
      ∧ build w₂.graph.tightMethod Graph.usualTerminators = .ok r
      ∧ SameCut name w₂.graph r := by
  have hbuild : Graph.build deadBranch Graph.usualTerminators = .ok deadBranchGraph := rfl
  have huids : (deadBranch.code.map (·.uid)).Nodup := by decide
  obtain ⟨hformed, hlinked⟩ := build_formed hbuild huids
  have hgone : deadBranchGraph.unreachable.map (·.label) = [1] := by decide +kernel
  have hjoined : (if deadBranchGraph.unreachable.isEmpty then deadBranchGraph
      else deadBranchGraph.removeUnreachable).joinedLabels = [3] := by decide +kernel
  obtain ⟨w, hremove, halike⟩ := removeUnreachable_run
    (w := { graph := deadBranchGraph, analysis := {} }) hformed hlinked
  have hgraph : w.graph = _ := halike.graph
  have hunderway : Underway deadBranch Graph.usualTerminators Deed.IsTrim w.graph :=
    .next (d := .removeUnreachable) (.built hbuild) trivial
      (bind_eq_ok.mpr ⟨_, w, hremove, rfl⟩)
  obtain ⟨w₁, w₂, r, name, hmerge, -, -, hrelinked, hmethod, hr, hsame⟩ :=
    merge_recut huids hunderway
  refine ⟨w, w₁, w₂, r, name, ?_, ?_, hrelinked, hmethod, hr, hsame⟩
  · exact hremove.trans (congrArg (EStateM.Result.ok · w) hgone)
  · rw [hmerge, hgraph]
    exact congrArg (EStateM.Result.ok · w₁) hjoined

end Work

end Untangle
