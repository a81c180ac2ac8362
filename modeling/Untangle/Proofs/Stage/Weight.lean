/-
  Untangle.Proofs.Stage.Weight

  What the stages take off the weight of a graph. Each stage but the last one makes the graph
  lighter by the number of changes that it counts: every junk instruction goes, every size query
  or operation that folds leaves one constant, and every dispatch that is resolved leaves a
  branch and at most one discard.
-/
import Untangle.Proofs.Graph.Weight
import Untangle.Proofs.Stage.Run

namespace Untangle

open Instruction

/-! ## Junk -/

namespace Junk

/-- What is kept and what is dropped make up the code. -/
theorem sift_weightOf (code : List Instruction) :
    weightOf (sift code).kept + weightOf (sift code).dropped = weightOf code := by
  induction code using List.reverseRecOn with
  | nil => rfl
  | append_singleton code ins ih =>
    rw [sift_concat, weightOf_append, ← ih, weightOf_cons, weightOf_nil]
    rcases take_cases (sift code) ins with ⟨-, htake⟩ | ⟨-, dup, rest, hcons, -, htake⟩
      | ⟨-, -, htake⟩
    · rw [htake]
      dsimp only
      rw [weightOf_append, weightOf_cons, weightOf_nil]
      omega
    · rw [htake, hcons]
      dsimp only
      rw [weightOf_append, weightOf_cons, weightOf_cons, weightOf_cons, weightOf_nil]
      omega
    · rw [htake]
      dsimp only
      rw [weightOf_cons]
      omega

/-- At most as many edits are made as are asked for. -/
theorem amount_le (g : Graph) :
    amount g ≤ Number.totalSize (g.blocks.map fun b => (inCode b.code).length) := by
  have hcoalesced (es : List Edit) : (Edit.coalesced es).length ≤ es.length := by
    induction es using List.reverseRecOn with
    | nil => exact Nat.le_refl _
    | append_singleton es e ih =>
      rw [Edit.coalesced_concat, List.length_append, List.length_singleton]
      split
      · omega
      · rw [List.length_append, List.length_singleton]
        omega
  have hedits : (g.blocks.flatMap edits).length
      = Number.totalSize (g.blocks.map fun b => (inCode b.code).length) := by
    rw [Number.length_flatMap]
    exact congrArg Number.totalSize (List.map_congr_left fun b _ => List.length_map ..)
  calc amount g ≤ (Edit.coalesced (g.blocks.flatMap edits)).length := Nat.sub_le _ _
    _ ≤ (g.blocks.flatMap edits).length := hcoalesced _
    _ = _ := hedits

/-- Without its junk a graph is lighter by as much as there is. -/
theorem weightOf_removed {g : Graph} (h : g.Formed) (hlinked : g.Linked) :
    weightOf (removed g).code + amount g ≤ weightOf g.code := by
  obtain ⟨number, hchanged⟩ := h.changed hlinked (suits g)
  have hlighter := Edit.Changed.weightOf_le hchanged
    (n := fun b => (inCode b.code).length) fun b hb => by
      rw [flatMap_outcome (h.block_uids_nodup hb), weightOf_reverse, ← sift_weightOf b.code]
      exact Nat.add_le_add_left (length_le_weightOf _) _
  exact (Nat.add_le_add_left (amount_le g) _).trans hlighter

end Junk

/-! ## Folding -/

/-- An edit in place makes no instruction heavier. -/
theorem Edit.weight_turned (edits : List Edit) (ins : Instruction) :
    (Edit.turned edits ins).weight ≤ ins.weight := by
  rcases Edit.turned_cases edits ins with ⟨v, -, hturned⟩ | ⟨t, -, hturned⟩ | hturned
  · rw [hturned]
    exact ins.weight_pos
  · rw [hturned]
    exact ins.weight_pos
  · rw [hturned]

namespace FoldEntry

/-- What an instruction in view weighs as it will stand. -/
def weight (entry : FoldEntry) : Nat :=
  if entry.constant.isSome then 1 else entry.ins.weight

theorem weight_le (entry : FoldEntry) : entry.weight ≤ entry.ins.weight := by
  unfold weight
  split
  · exact entry.ins.weight_pos
  · exact Nat.le_refl _

end FoldEntry

namespace Folding

/-- What the view weighs. -/
def weight (f : Folding) : Nat := Number.totalSize (f.view.map FoldEntry.weight)

@[simp] theorem weight_report (f : Folding) (events : List FoldEvent) :
    (f.report events).weight = f.weight := rfl

@[simp] theorem weight_see (f : Folding) (ins : Instruction) (constant : Option Value) :
    (f.see ins constant).weight = FoldEntry.weight ⟨ins, constant⟩ + f.weight := rfl

/-- What stands after the edits is no heavier than the view. -/
theorem Tracks.weightOf_standing {machine : Machine} {b : Block} {done : List Instruction}
    {f : Folding} (h : Tracks machine b done f) : weightOf f.standing ≤ f.weight := by
  unfold standing
  rw [List.map_reverse, weightOf_reverse]
  unfold weightOf weight
  rw [List.map_map]
  refine Number.totalSize_map_le fun entry hentry => ?_
  show (Edit.turned f.edits entry.ins).weight ≤ entry.weight
  unfold FoldEntry.weight
  cases hconstant : entry.constant with
  | none => exact Edit.weight_turned _ _
  | some c =>
    obtain ⟨-, hop, -⟩ := h.constants entry hentry c hconstant
    unfold Instruction.weight
    rw [hop]
    exact Nat.le_refl _

end Folding

namespace Folder

variable {folder : Folder} {b : Block} {f : Folding} {ins : Instruction}

/-- Constants in view weigh one each. -/
theorem weight_constants {entries : List FoldEntry} {vs : List Value}
    (h : entries.mapM (·.constant) = some vs) :
    Number.totalSize (entries.map FoldEntry.weight) = entries.length := by
  have hconstants := Folding.Tracks.mapM_constant h
  refine Number.totalSize_map_one fun entry hentry => ?_
  have hmem := List.mem_map_of_mem (f := (·.constant)) hentry
  rw [hconstants] at hmem
  obtain ⟨v, -, hv⟩ := List.mem_map.mp hmem
  unfold FoldEntry.weight
  rw [show entry.constant = some v from hv.symm]
  rfl

/-- An operation that folds takes its operands out of view, and there is one at least. -/
theorem weight_operated {op : ArithOp} {vs : List Value} {n : Int}
    (h : Folds folder f ins op vs n) :
    (operated b f ins op n).weight + 1 ≤ 1 + f.weight := by
  have harity : 1 ≤ op.arity := by cases op <;> decide
  have hsplit : f.weight = Number.totalSize ((f.view.take op.arity).map FoldEntry.weight)
      + Number.totalSize ((f.view.drop op.arity).map FoldEntry.weight) := by
    rw [← Number.totalSize_append, ← List.map_append, List.take_append_drop]
    rfl
  have htop := weight_constants h.constants
  rw [List.map_reverse, Number.totalSize_reverse, List.length_reverse, List.length_take,
    Nat.min_eq_left h.enough] at htop
  have hview : (operated b f ins op n).weight
      = 1 + Number.totalSize ((f.view.drop op.arity).map FoldEntry.weight) := rfl
  omega

/-- One more instruction adds no more than it weighs, counting what folds. -/
theorem weight_step (folder : Folder) (b : Block) (f : Folding) (ins : Instruction) :
    (folder.step b f ins).weight + (folder.step b f ins).count
      ≤ f.weight + f.count + ins.weight := by
  rcases step_cases folder b f ins with ⟨events, constant, -, -, hstep⟩
    | ⟨type, size, hop, -, hstep⟩ | ⟨op, vs, n, hfolds, hstep⟩
  · rw [hstep, Folding.weight_see, Folding.weight_report]
    have hentry := FoldEntry.weight_le ⟨ins, constant⟩
    have hcount : ((f.report events).see ins constant).count = f.count := rfl
    dsimp only at hentry
    omega
  · have hview : (foldSize b f ins type size).weight = 1 + f.weight := rfl
    have hcount : (foldSize b f ins type size).count = f.count + 1 := rfl
    have hins : ins.weight = 2 := by
      unfold Instruction.weight
      rw [hop]
    rw [hstep]
    omega
  · have hview := weight_operated (b := b) hfolds
    have hcount : (operated b f ins op n).count = f.count + 1 := rfl
    have hins := ins.weight_pos
    rw [hstep]
    omega

theorem weight_foldBlock (folder : Folder) (b : Block) :
    (folder.foldBlock b).weight + (folder.foldBlock b).count ≤ weightOf b.code := by
  have hwalk (code : List Instruction) :
      (code.foldl (folder.step b) {}).weight + (code.foldl (folder.step b) {}).count
        ≤ weightOf code := by
    induction code using List.reverseRecOn with
    | nil => exact Nat.le_refl _
    | append_singleton code ins ih =>
      have hstep := weight_step folder b (code.foldl (folder.step b) {}) ins
      rw [List.foldl_concat, weightOf_append, weightOf_cons, weightOf_nil]
      omega
  exact hwalk b.code

/-- A folded graph is lighter by as much as folds. -/
theorem weightOf_folded (folder : Folder) {g : Graph} (h : g.Formed) (hlinked : g.Linked) :
    weightOf (folder.folded g).code + folder.count g ≤ weightOf g.code := by
  obtain ⟨number, hchanged⟩ := h.changed hlinked (suits folder h)
  have hcount : folder.count g
      = Number.totalSize (g.blocks.map fun b => (folder.foldBlock b).count) := by
    rw [count, List.map_map]
    rfl
  rw [hcount]
  refine Edit.Changed.weightOf_le hchanged fun b hb => ?_
  have htracks := foldBlock_tracks folder (h.block_uids_nodup hb)
  have hcode : b.code.flatMap (Edit.outcome (folder.edits b) number)
      = (folder.foldBlock b).standing := htracks.code number
  rw [hcode]
  exact (Nat.add_le_add_right htracks.weightOf_standing _).trans (weight_foldBlock folder b)

end Folder

/-! ## Dispatches -/

namespace Dispatch

variable {facts : Facts} {g : Graph} {b : Block}

/-- A block whose dispatch is resolved is lighter, and not empty. -/
theorem weightOf_outcome (facts : Facts) (hnodup : (b.code.map (·.uid)).Nodup)
    (number : Int → Int) :
    weightOf (b.code.flatMap (Edit.outcome (editsOf facts b) number))
        + (if isChosen facts b then 1 else 0) ≤ weightOf b.code
      ∧ (b.code ≠ [] → b.code.flatMap (Edit.outcome (editsOf facts b) number) ≠ []) := by
  cases hchosen : isChosen facts b with
  | false =>
    rw [code_of_not_chosen hchosen]
    exact ⟨Nat.le_refl _, id⟩
  | true =>
    obtain ⟨n, t, hof⟩ := isChosen_iff.mp hchosen
    obtain ⟨init, switch, hproven⟩ := ofBlock_eq_chosen hof
    have hswitch : switch.weight = 3 := by
      unfold Instruction.weight
      rw [hproven.opcode]
    have hbranch : (switch.become .branch (.value t)).weight = 1 := rfl
    rcases hproven.resolved_code hof hnodup number with
      ⟨before, producer, hinit, -, hnew⟩ | hnew
    · rw [hnew, hproven.code, hinit]
      refine ⟨?_, fun _ => by simp⟩
      simp only [weightOf_append, weightOf_cons, weightOf_nil, hswitch, hbranch, if_true]
      omega
    · have hpop : ({ opcode := some .pop, uid := number switch.uid } : Instruction).weight = 1 :=
        rfl
      rw [hnew, hproven.code]
      refine ⟨?_, fun _ => by simp⟩
      simp only [weightOf_append, weightOf_cons, weightOf_nil, hswitch, hbranch, hpop, if_true]
      omega

/-- Each dispatch that is resolved makes the graph lighter. -/
theorem weightOf_resolved (h : g.Formed) (hlinked : g.Linked) :
    weightOf (resolved facts g).code + chosenCount facts g ≤ weightOf g.code := by
  obtain ⟨number, hchanged⟩ := h.changed hlinked (suits facts h)
  rw [chosenCount, Number.countP_eq]
  exact Edit.Changed.weightOf_le hchanged fun b hb =>
    (weightOf_outcome facts (h.block_uids_nodup hb) number).1

/-- Resolving dispatches empties no block. -/
theorem resolved_filled (h : g.Formed) (hlinked : g.Linked) (hfilled : g.Filled) :
    (resolved facts g).Filled := by
  obtain ⟨number, hchanged⟩ := h.changed hlinked (suits facts h)
  intro b hb
  have hmem := Graph.mem_outline_of_mem hb
  rw [show (resolved facts g).outline = _ from hchanged.outline] at hmem
  obtain ⟨e, he, heq⟩ := List.mem_map.mp hmem
  rw [show b.code = e.2.flatMap _ from (congrArg Prod.snd heq).symm]
  refine hchanged.forall_outline (p := fun _ _ new => new ≠ []) (fun c hc => ?_) e he
  exact (weightOf_outcome facts (h.block_uids_nodup hc) number).2 (hfilled c hc)

end Dispatch

/-! ## A run of a stage -/

namespace Stage

variable {P : Platform} {g₀ : Graph} {w w' : Workbench} {n : Nat}

/-- A run of any stage but the last one takes as much off the weight as it counts. -/
theorem weightOf_run {s : Stage} (hkind : s.kind ≠ .exceptionReconciler) (hw : w.Ready P g₀)
    (hrun : s.run.run w = .ok n w') :
    weightOf w'.graph.code + n ≤ weightOf w.graph.code
      ∧ (s.kind = .switchResolver → w.graph.Filled → w'.graph.Filled) := by
  have hformed := hw.sound.formed
  have hlinked := hw.sound.linked
  rcases run_eq_ok hkind hformed hlinked hrun with ⟨-, facts, hgraph, rfl⟩ | ⟨hs, hgraph, rfl⟩
    | ⟨hs, hgraph, rfl⟩
  · rw [hgraph]
    exact ⟨Dispatch.weightOf_resolved hformed hlinked,
      fun _ hfilled => Dispatch.resolved_filled hformed hlinked hfilled⟩
  · rw [hgraph, hs]
    exact ⟨Junk.weightOf_removed hformed hlinked, nofun⟩
  · rw [hgraph, hs]
    exact ⟨(s.folder w).weightOf_folded hformed hlinked, nofun⟩

end Stage

end Untangle
