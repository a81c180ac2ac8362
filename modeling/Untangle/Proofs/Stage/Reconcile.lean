/-
  Untangle.Proofs.Stage.Reconcile

  Keeping regions and exits in step. Exits are pointed where relinking points them anyway, so
  relinking gives the same code with and without that. A region that could be kept starts its
  handler with the first instruction that is left of its blocks.
-/
import Untangle.Proofs.Graph.Relinked
import Untangle.Proofs.Stage.Work
import Untangle.Stage.Reconcile

namespace Untangle

namespace Reconcile

open Graph

variable {g : Graph}

/-! ## Exits -/

/-- A recorded exit has a target that is a label, if it has one. -/
theorem exit_target (h : g.Formed) {ins : Instruction} (hins : ins ∈ g.code)
    {record : ExitRecord} (hrecord : g.exits.find? (fun e => e.uid == ins.uid) = some record) :
    ins.opcode = some .leave
      ∧ (ins.operand.isNone = true
        ∨ ∃ l ∈ g.labels, ins.operand.toValue.wholeNumber? = some l) := by
  have huid : record.uid = ins.uid := by simpa using List.find?_some hrecord
  have hop := (h.exits record (List.mem_of_find?_eq_some hrecord)).2 ins hins huid.symm
  refine ⟨hop, ?_⟩
  cases hnone : ins.operand.isNone with
  | true => exact Or.inl rfl
  | false =>
    have hbranch : ins.isBranch = true := by
      unfold Instruction.isBranch
      rw [hop]
      rfl
    have haims := Instruction.aims_of_not_switch hbranch (by rw [hop]; nofun)
    rw [hnone] at haims
    exact Or.inr (h.aims hins (haims ▸ List.mem_singleton_self _))

/-- Every instruction of a well-formed graph can be followed. -/
theorem canFollow_of_formed (h : g.Formed) {ins : Instruction} (hins : ins ∈ g.code) :
    canFollow g ins = true := by
  unfold canFollow
  cases hfound : g.exits.find? fun e => e.uid == ins.uid with
  | none =>
    have hnot : (g.exits.any fun e => e.uid == ins.uid) = false := by
      rw [Bool.eq_false_iff]
      intro hany
      obtain ⟨e, he, huid⟩ := List.any_eq_true.mp hany
      exact absurd huid (List.find?_eq_none.mp hfound e he)
    rw [hnot, Bool.not_false, Bool.or_true]
  | some record =>
    rcases (exit_target h hins hfound).2 with hnone | ⟨l, -, hl⟩
    · rw [Operand.eq_of_isNone hnone]
      rfl
    · rw [isKey_of_wholeNumber? hl, Bool.true_or]

/-- What becomes of an exit whose target stays somewhere. -/
theorem exitFate_kept {ins : Instruction} {target : Int} {isNew tooFar : Bool}
    (h : exitFate g ins = .kept target isNew tooFar) :
    ∃ record, g.exits.find? (fun e => e.uid == ins.uid) = some record
      ∧ ins.operand.toValue.wholeNumber?.bind g.liveTarget? = some target
      ∧ isNew = (ins.operand.toValue.wholeNumber? != some target) := by
  unfold exitFate at h
  cases hrecord : g.exits.find? fun e => e.uid == ins.uid with
  | none => rw [hrecord] at h; cases h
  | some record =>
    rw [hrecord] at h
    dsimp only at h
    cases hlive : ins.operand.toValue.wholeNumber?.bind g.liveTarget? with
    | none => rw [hlive] at h; cases h
    | some live =>
      rw [hlive] at h
      cases h
      exact ⟨record, rfl, rfl, rfl⟩

/-- Pointing an exit at a live instruction. -/
theorem relinkInstruction_leave {ins : Instruction} (hop : ins.opcode = some .leave)
    (hoperand : ins.operand.isNone = false) :
    g.relinkInstruction ins
      = { ins with operand := .value (g.relinkTarget ins.operand.toValue) } := by
  unfold relinkInstruction Instruction.retarget Instruction.isBranch
  rw [hop, hoperand]
  rfl

theorem exitMoved_uid (g : Graph) (ins : Instruction) : (exitMoved g ins).uid = ins.uid := by
  unfold exitMoved
  split <;> rfl

/-- An exit is moved to where relinking points it. -/
theorem relink_exitMoved (h : g.Formed) {ins : Instruction} (hins : ins ∈ g.code) :
    g.relinkInstruction (exitMoved g ins) = g.relinkInstruction ins := by
  unfold exitMoved
  split
  · rename_i live tooFar hfate
    obtain ⟨record, hrecord, hlive, hnew⟩ := exitFate_kept hfate
    obtain ⟨hop, hnone | ⟨l, hlabel, hl⟩⟩ := exit_target h hins hrecord
    · rw [Operand.eq_of_isNone hnone] at hlive
      cases hlive
    · rw [hl, Option.bind_some] at hlive
      have hagain := liveTarget?_live h.labels_nodup h.own hlabel hlive
      have hoperand : ins.operand.isNone = false := by
        refine Bool.eq_false_iff.mpr fun hnone => ?_
        rw [Operand.eq_of_isNone hnone] at hl
        cases hl
      have hsame (v : Value) (n : Int) (hv : v.wholeNumber? = some n)
          (hn : g.liveTarget? n = some live) (heq : n = live → v = .int live) :
          g.relinkTarget v = .int live := by
        unfold relinkTarget
        rw [hv, Option.bind_some, hn]
        dsimp only
        split
        · rename_i hlast
          exact heq (Option.some.inj (eq_of_beq hlast))
        · rfl
      rw [relinkInstruction_leave hop hoperand, relinkInstruction_leave (by exact hop) rfl,
        hsame _ l hl hlive fun heq => ?_]
      · exact congrArg (fun v => { ins with operand := .value v })
          (hsame (.int live) live rfl hagain fun _ => rfl)
      · rw [hl, heq] at hnew
        simp at hnew
  · rfl

/-- Where an exit moves does not depend on the regions. -/
theorem exitMoved_spans (g : Graph) (spans : List Span) (ins : Instruction) :
    exitMoved { g with spans } ins = exitMoved g ins := by
  unfold exitMoved exitFate
  dsimp only
  cases g.exits.find? fun e => e.uid == ins.uid with
  | none => rfl
  | some record =>
    have hlive : ({ g with spans } : Graph).liveTarget? = g.liveTarget? := rfl
    dsimp only
    rw [hlive]
    cases ins.operand.toValue.wholeNumber?.bind g.liveTarget? with
    | none => rfl
    | some live =>
      dsimp only
      cases ins.operand.toValue.wholeNumber? != some live <;> rfl

/-- All exits of a well-formed graph are brought up to date. -/
theorem exitsMoved_eq (h : g.Formed) (spans : List Span) :
    exitsMoved { g with spans } = { g.mapCode (exitMoved g) with spans } := by
  refine congrArg (fun blocks => { g with spans, blocks })
    ((changedWhile_eq fun b hb ins hins => ?_).trans ?_)
  · exact canFollow_of_formed h (mem_code_of_mem (mem_outline_of_mem hb) hins)
  · rw [show exitMoved { g with spans } = exitMoved g from funext (exitMoved_spans g spans)]
    rfl

/-- Targets can still be looked up once exits are brought up to date. -/
theorem exitMoved_checkTargets (h : g.Formed) {ins : Instruction} (hins : ins ∈ g.code) :
    (exitMoved g ins).checkTargets = .ok () := by
  unfold exitMoved
  split
  · rename_i live tooFar hfate
    obtain ⟨record, hrecord, -, -⟩ := exitFate_kept hfate
    have hop := (exit_target h hins hrecord).1
    unfold Instruction.checkTargets Instruction.targets Instruction.isBranch
    rw [hop]
    rfl
  · exact h.checkTargets hins

/-- Relinking gives the same code with and without moving regions and exits. -/
theorem exitsMoved_relinked (h : g.Formed) (spans : List Span) :
    (exitsMoved { g with spans }).checkTargets = .ok ()
      ∧ (exitsMoved { g with spans }).relinked.code = g.code.map g.relinkInstruction := by
  have hcode : ∀ i ∈ (g.mapCode (exitMoved g)).code, i.checkTargets = .ok () := by
    rw [mapCode_code]
    intro i hi
    obtain ⟨ins, hins, rfl⟩ := List.mem_map.mp hi
    exact exitMoved_checkTargets h hins
  rw [exitsMoved_eq h]
  refine ⟨forM_eq_ok.mpr hcode, ?_⟩
  show (g.mapCode (exitMoved g)).relinked.code = _
  rw [relinked_eq hcode, mapCode_code, mapCode_code, List.map_map]
  refine List.map_congr_left fun ins hins => ?_
  show (g.mapCode (exitMoved g)).relinkInstruction (exitMoved g ins) = g.relinkInstruction ins
  rw [relinkInstruction_mapCode (exitMoved_uid g), relink_exitMoved h hins]

/-! ## Regions -/

/-- Labels in a row are those of a run of blocks, and what is left of these is its code. -/
theorem exists_run (h : g.Formed) {labels : List Int} (hrun : labels <:+: g.labels) :
    ∃ before run after, g.outline = before ++ run ++ after ∧ Outline.labels run = labels
      ∧ (labels.filterMap g.block?).flatMap (·.code) = Outline.code run := by
  obtain ⟨front, run, after, hblocks, rfl, hfound⟩ := exists_row h.labels_nodup hrun
  refine ⟨front.map fun b => (b.label, b.code), run.map fun b => (b.label, b.code),
    after.map fun b => (b.label, b.code), ?_, ?_, ?_⟩
  · rw [outline, hblocks, List.map_append, List.map_append]
  · rw [Outline.labels, List.map_map]
    rfl
  · rw [hfound, Outline.code, List.flatMap_map]

/-- The bounds of blocks that follow each other are the first and the last of what is left of
    them. -/
theorem exists_run_of_bounds (h : g.Formed) {labels : List Int} (hrun : labels <:+: g.labels)
    {first last : Int} (hbounds : g.spanBounds? labels = some (first, last)) :
    ∃ before run after, g.outline = before ++ run ++ after ∧ Outline.labels run = labels
      ∧ (Outline.code run).head?.map (·.uid) = some first
      ∧ (Outline.code run).getLast?.map (·.uid) = some last := by
  obtain ⟨before, run, after, houtline, hlabels, hcode⟩ := exists_run h hrun
  refine ⟨before, run, after, houtline, hlabels, ?_⟩
  unfold spanBounds? at hbounds
  rw [hcode] at hbounds
  dsimp only at hbounds
  split at hbounds
  · rename_i i j hi hj
    cases hbounds
    rw [hi, hj]
    exact ⟨rfl, rfl⟩
  · cases hbounds

/-- What is left of the blocks of a handler starts where control enters the handler. -/
theorem spanBounds?_first (h : g.Formed) {s : Span} (hs : s ∈ g.spans) {first last : Int}
    (hbounds : g.spanBounds? s.handlerBlocks = some (first, last)) {l : Int}
    (hl : s.handlerBlocks.head? = some l) {place : Outline}
    (hplace : g.outline.from? l = some place) :
    (Outline.code place).head?.map (·.uid) = some first := by
  obtain ⟨before, run, after, houtline, hlabels, hfirst, -⟩ :=
    exists_run_of_bounds h (h.handlers s hs) hbounds
  rw [← hlabels] at hl
  cases run with
  | nil => cases hl
  | cons e run =>
    obtain rfl : e.1 = l := Option.some.inj hl
    rw [List.append_assoc, List.cons_append] at houtline
    obtain rfl : e :: (run ++ after) = place :=
      Option.some.inj ((from?_of_split h.outline_nodup houtline).symm.trans hplace)
    rw [← List.cons_append, Outline.code_append, List.head?_append]
    obtain ⟨ins, hins, huid⟩ := Option.map_eq_some_iff.mp hfirst
    rw [hins]
    exact congrArg some huid

/-- A value that is the same as a number stands for it. -/
theorem wholeNumber?_of_same {n : Int} {v : Value} (h : (Value.int n == v) = true) :
    v.wholeNumber? = some n := by
  have hequal : Value.equal (.int n) v = true := h
  cases v with
  | float x =>
    unfold Value.equal Value.wholeNumber? Value.asInt? at hequal
    show Number.whole? x = some n
    dsimp only at hequal
    cases hx : Number.whole? x with
    | none => rw [hx] at hequal; cases hequal
    | some m => rw [hx] at hequal; rw [eq_of_beq hequal]
  | int m =>
    have hsame : n = m := by simpa [Value.equal, Value.wholeNumber?, Value.asInt?] using hequal
    rw [hsame]
    rfl
  | bool b =>
    have hsame : n = if b then 1 else 0 := by
      simpa [Value.equal, Value.wholeNumber?, Value.asInt?] using hequal
    rw [hsame]
    rfl
  | _ => simp [Value.equal, Value.wholeNumber?, Value.asInt?] at hequal

/-- And the other way round. -/
theorem same_of_wholeNumber? {n : Int} {v : Value} (h : v.wholeNumber? = some n) :
    (Value.int n == v) = true := by
  show Value.equal (.int n) v = true
  cases v with
  | float x =>
    unfold Value.equal
    rw [h]
    exact beq_self_eq_true n
  | int m =>
    cases h
    simp [Value.equal, Value.wholeNumber?, Value.asInt?]
  | bool b =>
    have hsame : (if b then 1 else 0) = n := Option.some.inj h
    simp [Value.equal, Value.wholeNumber?, Value.asInt?, hsame]
  | _ => cases h

/-- A region that keeps its blocks lies between their first and last instructions. -/
theorem moved_boundaries {s : Span} {tries handlers : Int × Int}
    (htries : g.spanBounds? s.tryBlocks = some tries)
    (hhandlers : g.spanBounds? s.handlerBlocks = some handlers) {r : Region}
    (hr : ((moved? g s).getD s).region = r) :
    (r.tryStart.wholeNumber? = some tries.1 ∧ r.tryEnd.wholeNumber? = some tries.2)
      ∧ r.handlerStart.wholeNumber? = some handlers.1
      ∧ r.handlerEnd.wholeNumber? = some handlers.2 := by
  unfold moved? boundsOf at hr
  rw [htries, hhandlers] at hr
  dsimp only at hr
  split at hr
  · rename_i hsame
    have hequal : Value.same (.tuple (withBounds s.region tries handlers).boundaries)
        (.tuple s.region.boundaries) = true := hsame
    simp only [Value.same, Value.sameThing, Value.equal, Region.boundaries, withBounds,
      Value.equalItems, Bool.false_or, Bool.and_eq_true] at hequal
    obtain ⟨hts, hte, hhs, hhe, -⟩ := hequal
    rw [← hr]
    exact ⟨⟨wholeNumber?_of_same hts, wholeNumber?_of_same hte⟩, wholeNumber?_of_same hhs,
      wholeNumber?_of_same hhe⟩
  · rw [← hr]
    exact ⟨⟨rfl, rfl⟩, rfl, rfl⟩

/-- A region without empty ranges keeps something of both. -/
theorem bounds_of_regionIssues {index : Nat} {s : Span} (h : regionIssues g index s = []) :
    (g.spanBounds? s.tryBlocks).isSome ∧ (g.spanBounds? s.handlerBlocks).isSome := by
  unfold regionIssues boundsOf at h
  obtain ⟨htries, hhandlers⟩ := List.append_eq_nil_iff.mp h
  constructor
  · cases hbounds : g.spanBounds? s.tryBlocks with
    | some _ => rfl
    | none => rw [hbounds] at htries; cases htries
  · cases hbounds : g.spanBounds? s.handlerBlocks with
    | some _ => rfl
    | none => rw [hbounds] at hhandlers; cases hhandlers

/-- A region that has lost a whole range is not moved. -/
theorem moved?_of_lost {s : Span} (h : ¬ ((g.spanBounds? s.tryBlocks).isSome
    ∧ (g.spanBounds? s.handlerBlocks).isSome)) : moved? g s = none := by
  unfold moved? boundsOf
  split
  · rename_i tries handlers heq
    rw [Prod.mk.injEq] at heq
    exact absurd ⟨Option.isSome_of_eq_some heq.1, Option.isSome_of_eq_some heq.2⟩ h
  · rfl

theorem moved_kind (g : Graph) (s : Span) :
    ((moved? g s).getD s).region.kind = s.region.kind
      ∧ ((moved? g s).getD s).region.catchType = s.region.catchType := by
  unfold moved?
  split
  · dsimp only
    split <;> exact ⟨rfl, rfl⟩
  · exact ⟨rfl, rfl⟩

/-! ## The stage -/

/-- The defects of all regions. -/
def regionDefects (g : Graph) : List Issue :=
  g.spans.zipIdx.flatMap fun p => regionIssues g p.2 p.1

/-- The defects of all exits, once the regions are moved. -/
def exitDefects (g : Graph) : List Issue :=
  (g.code.takeWhile (canFollow g)).flatMap (exitIssues g)

/-- The graph with regions and exits brought up to date. -/
def reconciled (g : Graph) : Graph := exitsMoved (regionsMoved g)

/-- How much has to be brought up to date. -/
def changeCount (g : Graph) : Nat :=
  (g.spans.countP fun s => (moved? g s).isSome) + g.code.countP (exitChanges (regionsMoved g))

end Reconcile

namespace Stage

open Reconcile

theorem reconcileRegions_run (w : Workbench) :
    ∃ w', reconcileRegions.run w
        = .ok (w.graph.spans.countP fun s => (moved? w.graph s).isSome) w'
      ∧ ({ w with graph := regionsMoved w.graph, issues := w.issues ++ regionDefects w.graph } :
          Workbench).Alike w' := by
  unfold reconcileRegions
  rw [Work.get_bind]
  refine Work.Flags.exists_bind
    (Work.flags_forIn (fun p => regionIssues w.graph p.2 p.1) fun p _ => ?_) ?_
  · refine (Work.flags_forM _).andSays ?_
    cases moved? w.graph p.1 with
    | none => exact Work.says_pure _
    | some new => exact (Work.says_log _ _ _).bind (Work.says_pure _)
  · intro w₁ halike
    exact ⟨{ w₁ with graph := regionsMoved w.graph }, rfl, halike.setGraph _⟩

theorem reconcileExits_run {w : Workbench} {g : Graph} (h : g.Formed) {spans : List Span}
    (hgraph : w.graph = { g with spans }) :
    ∃ w', reconcileExits.run w = .ok (g.code.countP (exitChanges w.graph)) w'
      ∧ ({ w with graph := exitsMoved w.graph, issues := w.issues ++ exitDefects w.graph } :
          Workbench).Alike w' := by
  unfold reconcileExits
  rw [Work.get_bind]
  obtain ⟨w₁, hflags, halike⟩ := Work.flags_forM (exitDefects w.graph) w
  have hall : w.graph.code.all (canFollow w.graph) = true := by
    rw [hgraph]
    exact List.all_eq_true.mpr fun ins hins => canFollow_of_formed h hins
  refine ⟨{ w₁ with graph := exitsMoved w.graph }, ?_, halike.setGraph _⟩
  refine Work.bind_eq_ok.mpr ⟨(), w₁, hflags, ?_⟩
  rw [Work.setGraph_bind, hall]
  rw [hgraph]
  rfl

/-- Bringing regions and exits up to date succeeds on a well-formed graph; defects are noted. -/
theorem reconcile_run {w : Workbench} (h : w.graph.Formed) :
    ∃ w', reconcile.run w = .ok (changeCount w.graph) w'
      ∧ ({ w with
            graph := reconciled w.graph
            issues := w.issues ++ regionDefects w.graph ++ exitDefects (regionsMoved w.graph) } :
          Workbench).Alike w' := by
  obtain ⟨w₁, hregions, halike₁⟩ := reconcileRegions_run w
  obtain ⟨w₂, hexits, halike₂⟩ := reconcileExits_run (w := w₁) h halike₁.graph
  have hgraph : w₁.graph = regionsMoved w.graph := halike₁.graph
  rw [hgraph] at hexits halike₂
  refine ⟨w₂, ?_, ?_, ?_, ?_, ?_⟩
  · exact Work.bind_eq_ok.mpr ⟨_, w₁, hregions, Work.bind_eq_ok.mpr ⟨_, w₂, hexits, rfl⟩⟩
  · exact halike₂.graph
  · exact halike₂.analysis.trans halike₁.analysis
  · exact halike₂.facts.trans halike₁.facts
  · rw [halike₂.issues]
    show w₁.issues ++ _ = _
    rw [halike₁.issues]

end Stage

end Untangle
