/-
  Untangle.Proofs.Stage.Landed

  Where branches land once they are relinked. A target that is a label becomes the first
  instruction in the stream from the block of the label on, and every other target stays
  (`Graph.TargetLands`). What is live leads to itself (`Sturdy.liveTarget?_live`), so relinking
  once more rewrites nothing (`Work.relink_lands`).
-/
import Untangle.Proofs.Stage.Underway

namespace Untangle

namespace Instruction

variable {ins : Instruction} {rename rename' : Value → Value}

@[simp] theorem retarget_effect (rename : Value → Value) (ins : Instruction) :
    (ins.retarget rename).effect = ins.effect := by
  unfold retarget
  split
  · rfl
  · split
    · split <;> rfl
    · split <;> rfl

/-- A dispatch gets a tuple of the new targets. -/
theorem retarget_dispatch (hswitch : ins.opcode = some .switch) {ts : List Value}
    (h : ins.targets = .ok ts) (rename : Value → Value) :
    ins.retarget rename = { ins with operand := .value (.tuple (ts.map rename)) } := by
  have hbranch : ins.isBranch = true := isBranch_of_opcode hswitch
  rw [retarget, hbranch, hswitch, h]
  rfl

theorem targets_dispatch (hswitch : ins.opcode = some .switch) (ts : List Value) :
    ({ ins with operand := .value (.tuple ts) } : Instruction).targets = .ok ts := by
  unfold targets isBranch
  rw [hswitch]
  cases ts <;> rfl

/-- Another branch gets the new target. -/
theorem retarget_operand (hbranch : ins.isBranch = true) (hswitch : ins.opcode ≠ some .switch)
    (hsome : ins.operand.isNone = false) (rename : Value → Value) :
    ins.retarget rename = { ins with operand := .value (rename ins.operand.toValue) } := by
  rw [retarget, hbranch, beq_eq_false_iff_ne.mpr hswitch, hsome]
  rfl

theorem targets_operand (hbranch : ins.isBranch = true) (hswitch : ins.opcode ≠ some .switch)
    (hsome : ins.operand.isNone = false) : ins.targets = .ok [ins.operand.toValue] := by
  rw [targets, hbranch, beq_eq_false_iff_ne.mpr hswitch, hsome]
  rfl

theorem toValue_ne_null {op : Operand} (h : op.isNone = false) : op.toValue ≠ .null := by
  rintro hnull
  cases op with
  | operation op => cases hnull
  | value v =>
    cases hnull
    cases h

theorem isNone_value {v : Value} (h : v ≠ .null) : (Operand.value v).isNone = false := by
  cases v with
  | null => exact absurd rfl h
  | _ => rfl

/-- An instruction with targets is one that no renaming changes, a dispatch, or a branch with an
    operand. -/
theorem targets_forms {ts : List Value} (h : ins.targets = .ok ts) :
    (ts = [] ∧ ∀ rename, ins.retarget rename = ins) ∨ ins.opcode = some .switch
      ∨ (ins.isBranch = true ∧ ins.opcode ≠ some .switch ∧ ins.operand.isNone = false) := by
  cases hbranch : ins.isBranch with
  | false =>
    rw [targets, hbranch] at h
    cases h
    exact Or.inl ⟨rfl, fun rename => retarget_of_not_branch rename hbranch⟩
  | true =>
    by_cases hswitch : ins.opcode = some .switch
    · exact Or.inr (Or.inl hswitch)
    cases hnone : ins.operand.isNone with
    | true =>
      rw [targets, hbranch, beq_eq_false_iff_ne.mpr hswitch, hnone] at h
      cases h
      refine Or.inl ⟨rfl, fun rename => ?_⟩
      rw [retarget, hbranch, beq_eq_false_iff_ne.mpr hswitch, hnone]
      rfl
    | false => exact Or.inr (Or.inr ⟨rfl, hswitch, rfl⟩)

/-- The targets of an instruction that is sent through a renaming are the new ones, as long as
    none of them is left out. -/
theorem targets_retarget (hrename : ∀ t, t ≠ .null → rename t ≠ .null) {ts : List Value}
    (h : ins.targets = .ok ts) : (ins.retarget rename).targets = .ok (ts.map rename) := by
  rcases targets_forms h with ⟨rfl, hsame⟩ | hswitch | ⟨hbranch, hswitch, hsome⟩
  · rw [hsame, h, List.map_nil]
  · rw [retarget_dispatch hswitch h, targets_dispatch hswitch]
  · rw [targets_operand hbranch hswitch hsome] at h
    cases h
    rw [retarget_operand hbranch hswitch hsome]
    exact targets_operand hbranch hswitch (isNone_value (hrename _ (toValue_ne_null hsome)))

/-- Renamings one after the other are one renaming. -/
theorem retarget_retarget (hrename : ∀ t, t ≠ .null → rename t ≠ .null) (rename' : Value → Value)
    {ts : List Value} (h : ins.targets = .ok ts) :
    (ins.retarget rename).retarget rename' = ins.retarget (rename' ∘ rename) := by
  rcases targets_forms h with ⟨-, hsame⟩ | hswitch | ⟨hbranch, hswitch, hsome⟩
  · rw [hsame, hsame, hsame]
  · rw [retarget_dispatch hswitch h, retarget_dispatch hswitch h, ← List.map_map]
    exact retarget_dispatch (show Instruction.opcode { ins with
      operand := .value (.tuple (ts.map rename)) } = _ from hswitch) (targets_dispatch hswitch _)
      rename'
  · rw [retarget_operand hbranch hswitch hsome, retarget_operand hbranch hswitch hsome]
    exact retarget_operand (show Instruction.isBranch { ins with
      operand := .value (rename ins.operand.toValue) } = _ from hbranch) hswitch
      (isNone_value (hrename _ (toValue_ne_null hsome))) rename'

end Instruction

namespace Graph

variable {g : Graph}

/-! ## What is live leads to itself -/

theorem mapCode_eq_self {f : Instruction → Instruction} (h : ∀ ins ∈ g.code, f ins = ins) :
    g.mapCode f = g := by
  have hblocks : (g.blocks.map fun b : Block => { b with code := b.code.map f }) = g.blocks := by
    refine (List.map_congr_left fun b hb => ?_).trans (List.map_id _)
    have hcode : b.code.map f = b.code :=
      (List.map_congr_left fun ins hins => h ins (List.mem_flatMap.mpr ⟨b, hb, hins⟩)).trans
        (List.map_id _)
    rw [hcode]
    rfl
  rw [mapCode, hblocks]

theorem relinkTarget_ne_null {t : Value} (h : t ≠ .null) : g.relinkTarget t ≠ .null := by
  unfold relinkTarget
  split
  · split
    · exact h
    · exact nofun
  · exact h

/-- Where a number leads is a place that leads to itself. -/
theorem Sturdy.liveTarget?_live (h : g.Sturdy) {n live : Int}
    (hlive : g.liveTarget? n = some live) : g.liveTarget? live = some live := by
  by_cases hlabel : n ∈ g.labels
  · exact Graph.liveTarget?_live h.labels_nodup h.own hlabel hlive
  · have hsame : n = live := by
      unfold liveTarget? at hlive
      rw [if_neg fun hb => hlabel (hasBlock_iff.mp hb)] at hlive
      split at hlive
      · exact Option.some.inj hlive
      · cases hlive
    rw [← hsame] at hlive ⊢
    exact hlive

/-- A target that is relinked stays where it is. -/
theorem Sturdy.relinkTarget_relinkTarget (h : g.Sturdy) (t : Value) :
    g.relinkTarget (g.relinkTarget t) = g.relinkTarget t := by
  cases hlive : t.wholeNumber?.bind g.liveTarget? with
  | none =>
    have hsame : g.relinkTarget t = t := by rw [relinkTarget, hlive]
    rw [hsame, hsame]
  | some live =>
    obtain ⟨n, hn, hlive⟩ := Option.bind_eq_some_iff.mp hlive
    have hwhole := relinkTarget_of_live hn hlive
    generalize g.relinkTarget t = t' at hwhole
    rw [relinkTarget, hwhole, Option.bind_some, h.liveTarget?_live hlive]
    dsimp only
    rw [if_pos (beq_self_eq_true _)]

theorem Sturdy.relinkInstruction_relinkInstruction (h : g.Sturdy) {ins : Instruction}
    (hins : ins ∈ g.code) :
    g.relinkInstruction (g.relinkInstruction ins) = g.relinkInstruction ins := by
  have htargets := Instruction.targets_of_check (h.followed ins hins)
  unfold relinkInstruction
  rw [Instruction.retarget_retarget (fun t => relinkTarget_ne_null) _ htargets]
  exact Instruction.retarget_congr fun t _ => h.relinkTarget_relinkTarget t

/-- A graph that is relinked, and each of its instructions, stays as it is. -/
theorem Sturdy.relinkInstruction_relinked (h : g.Sturdy) {ins : Instruction}
    (hins : ins ∈ g.relinked.code) : g.relinked.relinkInstruction ins = ins := by
  rw [relinked_eq h.followed] at hins ⊢
  rw [mapCode_code] at hins
  obtain ⟨i, hi, rfl⟩ := List.mem_map.mp hins
  rw [relinkInstruction_mapCode g.relinkInstruction_uid]
  exact h.relinkInstruction_relinkInstruction hi

theorem Sturdy.relinked_relinked (h : g.Sturdy) : g.relinked.relinked = g.relinked := by
  rw [relinked_eq h.relinked.followed]
  exact mapCode_eq_self fun ins => h.relinkInstruction_relinked

/-! ## Where branches land -/

/-- What a target becomes. The label of a block becomes the first instruction in the stream from
    the block on; if there is none, it stays. So does what is no label. -/
structure TargetLands (g : Graph) (t t' : Value) : Prop where
  found : ∀ front b back first, g.blocks = front ++ b :: back → t.wholeNumber? = some b.label →
    ((b :: back).flatMap (·.code)).head? = some first → t'.wholeNumber? = some first.uid
  lost : ∀ front b back, g.blocks = front ++ b :: back → t.wholeNumber? = some b.label →
    (b :: back).flatMap (·.code) = [] → t' = t
  plain : (∀ l ∈ g.labels, t.wholeNumber? ≠ some l) → t' = t

/-- What an instruction becomes when each of its targets lands. -/
structure Lands (g : Graph) (ins ins' : Instruction) : Prop where
  uid : ins'.uid = ins.uid
  opcode : ins'.opcode = ins.opcode
  mnemonic : ins'.mnemonic = ins.mnemonic
  effect : ins'.effect = ins.effect
  straight : ins.isBranch = false → ins' = ins
  targets : ∃ ts ts', ins.targets = .ok ts ∧ ins'.targets = .ok ts'
    ∧ List.Forall₂ g.TargetLands ts ts'

/-- A label leads to the first instruction of the blocks from its own on. -/
theorem liveTarget?_of_split (hnodup : g.labels.Nodup) {front back : List Block} {b : Block}
    (hsplit : g.blocks = front ++ b :: back) :
    g.liveTarget? b.label = ((b :: back).flatMap (·.code)).head?.map (·.uid) := by
  have houtline : g.outline = front.map (fun c => (c.label, c.code))
      ++ (b.label, b.code) :: back.map (fun c => (c.label, c.code)) := by
    rw [outline, hsplit, List.map_append, List.map_cons]
  have hlabel : b.label ∈ g.labels :=
    List.mem_map_of_mem (hsplit ▸ List.mem_append_right _ List.mem_cons_self)
  rw [liveTarget?_of_label hlabel
    (from?_of_split ((Outline.labels_outline g).symm ▸ hnodup) houtline), Outline.code_cons,
    Outline.code, List.flatMap_map, List.flatMap_cons]

theorem Sturdy.targetLands (h : g.Sturdy) (t : Value) : g.TargetLands t (g.relinkTarget t) where
  found front b back first hsplit ht hfirst := by
    refine relinkTarget_of_live ht ?_
    rw [liveTarget?_of_split h.labels_nodup hsplit, hfirst]
    rfl
  lost front b back hsplit ht hnil := by
    refine relinkTarget_of_lost ht ?_
    rw [liveTarget?_of_split h.labels_nodup hsplit, hnil]
    rfl
  plain hplain := by
    unfold relinkTarget
    split
    · rename_i live hlive
      obtain ⟨n, hn, hlive⟩ := Option.bind_eq_some_iff.mp hlive
      unfold liveTarget? at hlive
      rw [if_neg fun hb => hplain n (hasBlock_iff.mp hb) hn] at hlive
      split at hlive
      · cases hlive
        rw [hn, if_pos (beq_self_eq_true _)]
      · cases hlive
    · rfl

theorem Sturdy.lands (h : g.Sturdy) {ins : Instruction} (hins : ins ∈ g.code) :
    g.Lands ins (g.relinkInstruction ins) where
  uid := g.relinkInstruction_uid ins
  opcode := g.relinkInstruction_opcode ins
  mnemonic := Instruction.retarget_mnemonic _ ins
  effect := Instruction.retarget_effect _ ins
  straight hbranch := Instruction.retarget_of_not_branch _ hbranch
  targets := by
    have htargets := Instruction.targets_of_check (h.followed ins hins)
    exact ⟨_, _, htargets, Instruction.targets_retarget (fun _ => relinkTarget_ne_null) htargets,
      List.forall₂_map_right_iff.mpr (List.forall₂_same.mpr fun t _ => h.targetLands t)⟩

end Graph

namespace Work

variable {m : Method} {terminators : List Value} {w : Workbench}

/-- On every graph on the way to a replacement, relinking lands each branch on the first
    instruction in the stream from the block that it names on, and changes nothing else. Doing it
    again changes nothing, and counts only the operands that do not equal themselves, which are
    doubles that are no numbers. -/
theorem relink_lands (huids : (m.code.map (·.uid)).Nodup) (h : w.graph.Arrives m terminators) :
    ∃ (n : Nat) (w₁ : Workbench) (f : Instruction → Instruction) (again : Nat) (w₂ : Workbench),
      relink.run w = .ok n w₁
      ∧ w₁.graph = w.graph.mapCode f
      ∧ (∀ ins ∈ w.graph.code, w.graph.Lands ins (f ins))
      ∧ n = w.graph.code.countP
          (fun ins => Graph.operandChanged ins.operand (f ins).operand)
      ∧ relink.run w₁ = .ok again w₂
      ∧ w₂.graph = w₁.graph
      ∧ again = w₁.graph.code.countP
          (fun ins => Graph.operandChanged ins.operand ins.operand) := by
  have hsturdy := h.sturdy huids
  obtain ⟨w₁, hrun, hgraph⟩ := relink_checked (forM_eq_ok.mpr hsturdy.followed)
  have hsturdy₁ : w₁.graph.Sturdy := hgraph ▸ hsturdy.relinked
  obtain ⟨w₂, hrun', hgraph'⟩ := relink_checked (forM_eq_ok.mpr hsturdy₁.followed)
  refine ⟨_, w₁, w.graph.relinkInstruction, _, w₂, hrun, ?_, fun ins => hsturdy.lands, rfl, hrun',
    ?_, ?_⟩
  · rw [hgraph, Graph.relinked_eq hsturdy.followed]
  · rw [hgraph', hgraph, hsturdy.relinked_relinked]
  · refine List.countP_congr fun ins hins => ?_
    rw [hgraph] at hins ⊢
    rw [hsturdy.relinkInstruction_relinked hins]

/-- A branch to a no-op before a loop. -/
def skippedNop : Method where
  code :=
    [{ opcode := some .branch, operand := .value (.int 1), uid := 0 },
     { opcode := some .nop, uid := 1 },
     { opcode := some .loadLocal, operand := .value (.str "x"), uid := 2 },
     { opcode := some .condBranch, operand := .value (.int 2), uid := 3 },
     { opcode := some .other, uid := 4, mnemonic := .str "ret" }]

/-- Once the no-op is gone, the branch to it lands on the loop. That is the one operand which is
    rewritten, and a second time there is none. -/
theorem relink_lands_skippedNop : ∃ w w₁ w₂ : Workbench,
    (skippedNop.code.map (·.uid)).Nodup ∧ w.graph.Arrives skippedNop Graph.usualTerminators
      ∧ w.graph.blocks.map (fun b => (b.label, b.code.map (·.uid)))
        = [(0, [0]), (1, []), (2, [2, 3]), (4, [4])]
      ∧ relink.run w = .ok 1 w₁ ∧ w₁.graph.code.map (·.targetUids) = [[2], [], [2], []]
      ∧ relink.run w₁ = .ok 0 w₂ ∧ w₂.graph = w₁.graph := by
  have huids : (skippedNop.code.map (·.uid)).Nodup := by decide
  have hcleared : ∃ g w w₁, Graph.build skippedNop Graph.usualTerminators = .ok g
      ∧ (Deed.stage { kind := .junkEliminator }).work.run { graph := g, analysis := {} }
        = .ok () w
      ∧ w.graph.blocks.map (fun b => (b.label, b.code.map (·.uid)))
        = [(0, [0]), (1, []), (2, [2, 3]), (4, [4])]
      ∧ relink.run w = .ok 1 w₁
      ∧ w₁.graph.code.map (·.targetUids) = [[2], [], [2], []]
      ∧ w₁.graph.code.countP (fun ins => Graph.operandChanged ins.operand ins.operand) = 0 :=
    ⟨_, _, _, rfl, rfl, rfl, rfl, rfl, rfl⟩
  obtain ⟨g, w, w₁, hbuild, hclear, hblocks, hfirst, htargets, hnone⟩ := hcleared
  have hearly : (Deed.stage { kind := .junkEliminator }).IsEarly :=
    show StageKind.junkEliminator ≠ .exceptionReconciler by decide
  have harrives : w.graph.Arrives skippedNop Graph.usualTerminators :=
    .early (.next (w := { graph := g, analysis := {} }) (.built hbuild) hearly hclear)
  obtain ⟨n, w₁', f, again, w₂, hrun, -, -, -, hagain, hsame, hcount⟩ :=
    relink_lands huids harrives
  cases hfirst.symm.trans hrun
  rw [hnone] at hcount
  exact ⟨w, w₁, w₂, huids, harrives, hblocks, hfirst, htargets, hcount ▸ hagain, hsame⟩

end Work

end Untangle
