/-
  Untangle.Proofs.Stage.Fold

  Folding constants. The view of a folder is the code of the block so far as it will stand:
  the code has the same effect as the instructions in view, and those that are marked as
  constants push them (`Folding.Tracks`). One more instruction keeps this, so a folded block
  does exactly what the block does. What the analysis proved plays no part in that.
-/
import Untangle.Proofs.Graph.Rewritten
import Untangle.Proofs.Stage.Work
import Untangle.Stage.Fold

namespace Untangle

/-- The edit that an event queues. -/
def FoldEvent.edit? : FoldEvent → Option Edit
  | .queue e => some e
  | _ => none

namespace Folding

/-- The edits queued so far. -/
def edits (f : Folding) : List Edit := f.events.filterMap FoldEvent.edit?

/-- The instructions in view, as they will stand. -/
def standing (f : Folding) : List Instruction :=
  f.view.reverse.map fun entry => Edit.turned f.edits entry.ins

theorem report_nil (f : Folding) : f.report [] = f := by
  show ({ f with events := f.events ++ [] } : Folding) = f
  rw [List.append_nil]

theorem edits_report_of_none {f : Folding} {events : List FoldEvent}
    (h : ∀ event ∈ events, event.edit? = none) : (f.report events).edits = f.edits := by
  show (f.events ++ events).filterMap _ = _
  rw [List.filterMap_append, List.filterMap_eq_nil_iff.mpr h, List.append_nil]
  rfl

theorem edits_report_queue (f : Folding) (events : List FoldEvent) (edits : List Edit)
    (h : ∀ event ∈ events, event.edit? = none) :
    (f.report (events ++ edits.map FoldEvent.queue)).edits = f.edits ++ edits := by
  show (f.events ++ (events ++ edits.map FoldEvent.queue)).filterMap _ = _
  rw [List.filterMap_append, List.filterMap_append, List.filterMap_eq_nil_iff.mpr h,
    List.filterMap_map, List.nil_append]
  congr 1
  exact List.filterMap_some

end Folding

/-! ## What one more instruction does -/

namespace Folder

variable {folder : Folder} {b : Block} {f : Folding} {ins : Instruction}

/-- An operation folds: there are constants in front of it, and what they give is proven. -/
structure Folds (folder : Folder) (f : Folding) (ins : Instruction) (op : ArithOp)
    (vs : List Value) (n : Int) : Prop where
  on : folder.arithmetic = true
  opcode : ins.opcode = some .arith
  operand : ins.operand = .operation op
  constants : ((f.view.take op.arity).reverse).mapM (·.constant) = some vs
  enough : op.arity ≤ f.view.length
  result : op.evaluateAt vs folder.machine.width folder.machine.policy = .ok (some n)
  proven : folder.facts.knownInt? ins.uid = some n

/-- The folding after an operation that folds. -/
def operated (b : Block) (f : Folding) (ins : Instruction) (op : ArithOp) (n : Int) : Folding :=
  let operands := (f.view.take op.arity).reverse
  let removals := operands.map fun entry =>
    Edit.ofInstruction .remove b entry.ins ("operand of " ++ ins.describe)
  let constant :=
    Edit.ofInstruction (.toConstant (.int n)) b ins (ins.describe ++ " = " ++ toString n)
  let left : Folding := { f with view := f.view.drop op.arity, count := f.count + 1 }
  (left.report ([.consult] ++ (removals ++ [constant]).map .queue)).see ins (some (.int n))

/-- What an operation over the constants in view gives. -/
theorem arithmeticResult_cases (folder : Folder) (f : Folding) (ins : Instruction)
    (op : ArithOp) :
    (∃ events, (∀ event ∈ events, event.edit? = none)
        ∧ folder.arithmeticResult f ins op = (none, events))
      ∨ ∃ vs n, ((f.view.take op.arity).reverse).mapM (·.constant) = some vs
        ∧ op.arity ≤ f.view.length
        ∧ op.evaluateAt vs folder.machine.width folder.machine.policy = .ok (some n)
        ∧ folder.facts.knownInt? ins.uid = some n
        ∧ folder.arithmeticResult f ins op = (some n, [.consult]) := by
  unfold arithmeticResult
  dsimp only
  split
  · exact Or.inl ⟨[], by simp, rfl⟩
  · rename_i vs hconstants
    split
    · exact Or.inl ⟨[], by simp, rfl⟩
    · rename_i hlong
      split
      · exact Or.inl ⟨_, by simp [FoldEvent.edit?], rfl⟩
      · exact Or.inl ⟨_, by simp [FoldEvent.edit?], rfl⟩
      · exact Or.inl ⟨[], by simp, rfl⟩
      · rename_i n hresult
        split
        · rename_i proven hproven
          split
          · rename_i hsame
            rw [eq_of_beq hsame] at hproven
            exact Or.inr ⟨vs, n, hconstants, by omega, hresult, hproven, rfl⟩
          · exact Or.inl ⟨_, by simp [FoldEvent.edit?], rfl⟩
        · exact Or.inl ⟨_, by simp [FoldEvent.edit?], rfl⟩

/-- What can come of one more instruction: it is left, it is a constant, it is a size query
    whose answer is in the table, or an operation that folds. -/
theorem step_cases (folder : Folder) (b : Block) (f : Folding) (ins : Instruction) :
    (∃ events constant, (∀ event ∈ events, event.edit? = none)
        ∧ (∀ c, constant = some c → ins.opcode = some .pushConst ∧ ins.operand = .value c)
        ∧ folder.step b f ins = (f.report events).see ins constant)
      ∨ (∃ type size, ins.opcode = some .sizeOf ∧ folder.sizeOf? ins = some (type, size)
        ∧ folder.step b f ins = foldSize b f ins type size)
      ∨ ∃ op vs n, Folds folder f ins op vs n ∧ folder.step b f ins = operated b f ins op n := by
  have hnothing := f.report_nil
  unfold step
  split
  · rename_i n hop hoperand
    refine Or.inl ⟨[], some (.int n), by simp, ?_, by rw [hnothing]⟩
    rintro c heq
    cases heq
    exact ⟨hop, hoperand⟩
  · rename_i hop
    split
    · rename_i type size hsize
      refine Or.inr (Or.inl ⟨type, size, hop, ?_, rfl⟩)
      split at hsize
      · exact hsize
      · cases hsize
    · exact Or.inl ⟨_, none, by simp [FoldEvent.edit?], nofun, rfl⟩
  · rename_i op hop hoperand
    split
    · rename_i hon
      unfold foldArithmetic
      rcases arithmeticResult_cases folder f ins op with
        ⟨events, hevents, hresult⟩ | ⟨vs, n, hconstants, henough, heval, hproven, hresult⟩
      · rw [hresult]
        exact Or.inl ⟨events, none, hevents, nofun, rfl⟩
      · rw [hresult]
        exact Or.inr (Or.inr ⟨op, vs, n, ⟨hon, hop, hoperand, hconstants, henough, heval, hproven⟩,
          rfl⟩)
    · exact Or.inl ⟨[], none, by simp, nofun, by rw [hnothing]⟩
  · split
    · exact Or.inl ⟨_, none, by simp [FoldEvent.edit?], nofun, rfl⟩
    · exact Or.inl ⟨[], none, by simp, nofun, by rw [hnothing]⟩
  · exact Or.inl ⟨[], none, by simp, nofun, by rw [hnothing]⟩

end Folder

/-! ## The view and the code -/

/-- An instruction that only computes a value. -/
def Instruction.Computes (ins : Instruction) : Prop :=
  ins.opcode = some .pushConst ∨ ins.opcode = some .sizeOf ∨ ins.opcode = some .arith

theorem Instruction.Computes.isDroppable {ins : Instruction} (h : ins.Computes) :
    ins.isDroppable = true := by
  unfold Instruction.isDroppable
  rcases h with h | h | h <;> rw [h]

theorem Instruction.Computes.straight {ins : Instruction} (h : ins.Computes)
    (terminators : List Value) : ins.endsRun terminators = false :=
  Rewritten.straight_of_droppable h.isDroppable terminators

namespace Folding

/-- The state of folding describes the code so far. -/
structure Tracks (machine : Machine) (b : Block) (done : List Instruction) (f : Folding) :
    Prop where
  named : ∀ e ∈ f.edits, ∃ ins ∈ done, e.block = .int b.label ∧ e.uid = .int ins.uid
    ∧ ins.Computes ∧ (e.change = .remove ∨ ins.IsFoldable ∧ ∃ v, e.change = .toConstant v)
  left : done.filter (Edit.isLeft f.edits) = f.view.reverse.map (·.ins)
  constants : ∀ entry ∈ f.view, ∀ c, entry.constant = some c → entry.ins.Computes
    ∧ (Edit.turned f.edits entry.ins).opcode = some .pushConst
    ∧ (Edit.turned f.edits entry.ins).operand = .value c
  shows : ∀ P : Platform, P.machine = machine → ∀ σ,
    Instruction.actAll P done σ = Instruction.actAll P f.standing σ

namespace Tracks

variable {machine : Machine} {b : Block} {done : List Instruction} {f : Folding}
  {ins : Instruction}

theorem start (machine : Machine) (b : Block) : Tracks machine b [] {} where
  named _ he := absurd he List.not_mem_nil
  left := rfl
  constants _ he := absurd he List.not_mem_nil
  shows _ _ _ := rfl

theorem mem_done (h : Tracks machine b done f) {entry : FoldEntry} (he : entry ∈ f.view) :
    entry.ins ∈ done := by
  refine List.mem_of_mem_filter (p := Edit.isLeft f.edits) ?_
  rw [h.left]
  exact List.mem_map_of_mem (List.mem_reverse.mpr he)

/-- Folding only drops instructions and makes constants of them. -/
theorem plain (h : Tracks machine b done f) {e : Edit} (he : e ∈ f.edits) :
    e.change = .remove ∨ ∃ v, e.change = .toConstant v := by
  obtain ⟨-, -, -, -, -, hremove | ⟨-, hconstant⟩⟩ := h.named e he
  · exact Or.inl hremove
  · exact Or.inr hconstant

/-- No edit names an instruction that comes later. -/
theorem not_named (h : Tracks machine b done f) {u : Int} (hu : ∀ i ∈ done, i.uid ≠ u) :
    ∀ e ∈ f.edits, e.names u = false := by
  intro e he
  obtain ⟨i, hi, -, huid, -⟩ := h.named e he
  rw [Edit.names_eq huid]
  simpa using hu i hi

/-- The code of a folded block. -/
theorem code (h : Tracks machine b done f) (number : Int → Int) :
    done.flatMap (Edit.outcome f.edits number) = f.standing := by
  rw [Edit.flatMap_outcome (fun e he => ?_), h.left, List.map_map]
  · rfl
  · rcases h.plain he with hremove | ⟨v, hv⟩
    · rw [hremove]; rfl
    · rw [hv]; rfl

/-- Edits made for one more instruction: the constants `top` in front of it go, and it may
    become a constant itself. -/
structure Grows (b : Block) (top : List FoldEntry) (ins : Instruction) (more : List Edit) :
    Prop where
  made : ∀ e ∈ more, e.block = .int b.label
    ∧ ((∃ entry ∈ top, e.uid = .int entry.ins.uid ∧ e.change = .remove)
      ∨ (e.uid = .int ins.uid ∧ ins.IsFoldable ∧ ∃ v, e.change = .toConstant v))
  gone : ∀ entry ∈ top, ∃ e ∈ more, e.uid = .int entry.ins.uid ∧ e.change = .remove

/-- No edits are made for an instruction that is left as it is. -/
theorem Grows.nothing (b : Block) (ins : Instruction) : Grows b [] ins [] where
  made _ he := absurd he List.not_mem_nil
  gone _ he := absurd he List.not_mem_nil

theorem Grows.removes {top : List FoldEntry} {more : List Edit} (h : Grows b top ins more)
    (i : Instruction) :
    Edit.isLeft more i = !(top.map (·.ins.uid)).contains i.uid := by
  unfold Edit.isLeft
  cases hasked : Edit.asked more Change.removal? i.uid with
  | some u =>
    obtain ⟨e, he, hnames, hpick⟩ := Edit.exists_of_asked hasked
    obtain ⟨-, ⟨entry, hentry, huid, -⟩ | ⟨-, -, v, hv⟩⟩ := h.made e he
    · rw [Edit.names_eq huid] at hnames
      have hmem : i.uid ∈ top.map (·.ins.uid) :=
        List.mem_map.mpr ⟨entry, hentry, eq_of_beq hnames⟩
      rw [List.contains_iff_mem.mpr hmem]
      rfl
    · rw [hv] at hpick; cases hpick
  | none =>
    have hnot : i.uid ∉ top.map (·.ins.uid) := by
      intro hmem
      obtain ⟨entry, hentry, huid⟩ := List.mem_map.mp hmem
      obtain ⟨e, he, heuid, hchange⟩ := h.gone entry hentry
      have := List.findSome?_eq_none_iff.mp hasked e he
      rw [Edit.names_eq heuid, huid, beq_self_eq_true, if_pos rfl, hchange] at this
      cases this
    rw [Bool.eq_false_iff.mpr fun hc => hnot (List.contains_iff_mem.mp hc)]
    rfl

/-- What earlier instructions become stays as it is. -/
theorem Grows.turned_earlier {top : List FoldEntry} {more : List Edit}
    (h : Grows b top ins more) (edits : List Edit) {i : Instruction} (hi : i.uid ≠ ins.uid) :
    Edit.turned (edits ++ more) i = Edit.turned edits i := by
  have hnone {α : Type} (pick : Change → Option α) (hpick : pick .remove = none) :
      Edit.asked more pick i.uid = none := by
    refine List.findSome?_eq_none_iff.mpr fun e he => ?_
    obtain ⟨-, ⟨entry, hentry, -, hchange⟩ | ⟨huid, -⟩⟩ := h.made e he
    · rw [hchange, hpick, ite_self]
    · rw [Edit.names_eq huid, if_neg (by simpa using hi.symm)]
  unfold Edit.turned
  rw [Edit.asked_append, Edit.asked_append, hnone Change.constant? rfl, hnone Change.target? rfl,
    Option.or_none, Option.or_none]

/-- What is left of the code: the constants in front of the new instruction are gone. -/
theorem left_grown (h : Tracks machine b done f) (hnew : ∀ i ∈ done, i.uid ≠ ins.uid)
    (hnodup : (done.map (·.uid)).Nodup) {top rest : List FoldEntry} {more : List Edit}
    (hview : f.view = top ++ rest) (hmore : Grows b top ins more) :
    (done ++ [ins]).filter (Edit.isLeft (f.edits ++ more))
      = rest.reverse.map (·.ins) ++ [ins] := by
  have huids : ((rest.reverse ++ top.reverse).map (·.ins.uid)).Nodup := by
    have hmap : (rest.reverse ++ top.reverse).map (·.ins.uid)
        = (done.filter (Edit.isLeft f.edits)).map (·.uid) := by
      rw [h.left, hview, List.reverse_append, List.map_map]
      rfl
    rw [hmap]
    exact hnodup.sublist (List.filter_sublist.map _)
  rw [List.map_append, List.nodup_append] at huids
  -- Of what was left, exactly the entries of `top` are taken away.
  have hgone : (top.reverse.map (·.ins)).filter (Edit.isLeft more) = [] := by
    refine List.filter_eq_nil_iff.mpr fun i hi => ?_
    obtain ⟨entry, hentry, rfl⟩ := List.mem_map.mp hi
    rw [hmore.removes, List.contains_iff_mem.mpr (List.mem_map_of_mem (List.mem_reverse.mp hentry))]
    decide
  have hstay : (rest.reverse.map (·.ins)).filter (Edit.isLeft more) = rest.reverse.map (·.ins) := by
    refine List.filter_eq_self.mpr fun i hi => ?_
    obtain ⟨entry, hentry, rfl⟩ := List.mem_map.mp hi
    rw [hmore.removes, Bool.not_eq_true']
    refine Bool.eq_false_iff.mpr fun hc => ?_
    obtain ⟨entry', hentry', huid⟩ := List.mem_map.mp (List.contains_iff_mem.mp hc)
    exact huids.2.2 _ (List.mem_map_of_mem hentry) _
      (List.mem_map.mpr ⟨entry', List.mem_reverse.mpr hentry', rfl⟩) huid.symm
  have hself : Edit.isLeft (f.edits ++ more) ins = true := by
    have hearlier : Edit.isLeft f.edits ins = true := by
      unfold Edit.isLeft
      rw [Edit.asked_eq_none (h.not_named hnew)]
      rfl
    rw [Edit.isLeft_append, hearlier, hmore.removes, Bool.and_true, Bool.not_eq_true']
    refine Bool.eq_false_iff.mpr fun hc => ?_
    obtain ⟨entry, hentry, huid⟩ := List.mem_map.mp (List.contains_iff_mem.mp hc)
    exact hnew _ (h.mem_done (hview ▸ List.mem_append_left _ hentry)) huid
  rw [List.filter_append, List.filter_congr fun i _ => Edit.isLeft_append f.edits more i,
    ← List.filter_filter, h.left, hview, List.reverse_append, List.map_append, List.filter_append,
    hstay, hgone, List.append_nil, List.filter_cons_of_pos hself, List.filter_nil]

/-- One more instruction, with the edits that it calls for. -/
theorem grow (h : Tracks machine b done f) (hnew : ∀ i ∈ done, i.uid ≠ ins.uid)
    (hnodup : (done.map (·.uid)).Nodup) {f' : Folding} (top rest : List FoldEntry)
    (more : List Edit) (constant : Option Value) (hview : f.view = top ++ rest)
    (htop : ∀ entry ∈ top, entry.constant.isSome) (hmore : Grows b top ins more)
    (hedits : f'.edits = f.edits ++ more) (hview' : f'.view = ⟨ins, constant⟩ :: rest)
    (hconstant : ∀ c, constant = some c → ins.Computes
      ∧ (Edit.turned more ins).opcode = some .pushConst
      ∧ (Edit.turned more ins).operand = .value c)
    (hshows : ∀ P : Platform, P.machine = machine → ∀ σ,
      (Instruction.actAll P (top.reverse.map fun entry => Edit.turned f.edits entry.ins) σ).andThen
        (ins.act P) = (Edit.turned more ins).act P σ) :
    Tracks machine b (done ++ [ins]) f' := by
  have hturned : Edit.turned (f.edits ++ more) ins = Edit.turned more ins :=
    Edit.turned_append_of_not_named (h.not_named hnew) more
  have hold : ∀ entry ∈ rest, Edit.turned (f.edits ++ more) entry.ins
      = Edit.turned f.edits entry.ins := fun entry hentry =>
    hmore.turned_earlier f.edits (hnew _ (h.mem_done (hview ▸ List.mem_append_right _ hentry)))
  constructor
  case named =>
    rw [hedits]
    intro e he
    rcases List.mem_append.mp he with he | he
    · obtain ⟨i, hi, hnamed⟩ := h.named e he
      exact ⟨i, List.mem_append_left _ hi, hnamed⟩
    · obtain ⟨hblock, ⟨entry, hentry, huid, hchange⟩ | ⟨huid, hfolds, hchange⟩⟩ :=
        hmore.made e he
      · have hmem : entry ∈ f.view := hview ▸ List.mem_append_left _ hentry
        obtain ⟨c, hc⟩ := Option.isSome_iff_exists.mp (htop entry hentry)
        exact ⟨entry.ins, List.mem_append_left _ (h.mem_done hmem), hblock, huid,
          (h.constants entry hmem c hc).1, Or.inl hchange⟩
      · exact ⟨ins, List.mem_append_right _ (List.mem_singleton_self _), hblock, huid,
          Or.inr hfolds, Or.inr ⟨hfolds, hchange⟩⟩
  case left =>
    rw [hedits, h.left_grown hnew hnodup hview hmore, hview', List.reverse_cons, List.map_append]
    rfl
  case constants =>
    rw [hedits, hview']
    intro entry hentry c hc
    rcases List.mem_cons.mp hentry with rfl | hentry
    · rw [hturned]
      exact hconstant c hc
    · rw [hold entry hentry]
      exact h.constants entry (hview ▸ List.mem_append_right _ hentry) c hc
  case shows =>
    intro P hP σ
    have hstanding : f'.standing
        = (rest.reverse.map fun entry => Edit.turned f.edits entry.ins)
          ++ [Edit.turned more ins] := by
      unfold standing
      rw [hedits, hview', List.reverse_cons, List.map_append, List.map_singleton, hturned]
      congr 1
      exact List.map_congr_left fun entry hentry => hold _ (List.mem_reverse.mp hentry)
    rw [hstanding, Instruction.actAll_append, Instruction.actAll_append, h.shows P hP, standing,
      hview, List.reverse_append, List.map_append, Instruction.actAll_append, Turn.andThen_assoc]
    congr 1
    funext ρ
    rw [Instruction.actAll_singleton, ← hshows P hP]
    congr 1
    exact funext fun τ => Instruction.actAll_singleton P ins τ

/-! ## Running what folds -/

theorem act_pushConst (P : Platform) {ins : Instruction} (hop : ins.opcode = some .pushConst)
    (σ : Moment) : ins.act P σ = .next (σ.push ins.operand.toValue.fixed) := by
  unfold Instruction.act Instruction.perform
  rw [Instruction.copy_opcode, hop]
  dsimp only
  rw [Instruction.copy_operand_toValue]

/-- Code that pushes constants pushes them. -/
theorem actAll_constants (P : Platform) {code : List Instruction}
    (h : ∀ ins ∈ code, ins.opcode = some .pushConst) (σ : Moment) :
    Instruction.actAll P code σ
      = .next { σ with stack := (code.map (·.operand.toValue.fixed)).reverse ++ σ.stack } := by
  induction code generalizing σ with
  | nil => rfl
  | cons ins code ih =>
    rw [Instruction.actAll_cons, act_pushConst P (h ins List.mem_cons_self), Turn.andThen_next,
      ih fun i hi => h i (List.mem_cons_of_mem _ hi)]
    simp [Moment.push]

/-- An operation on integers that have been pushed gives its result. -/
theorem operate_pushed {P : Platform} {op : ArithOp} {vs : List Value} {n : Int}
    (h : op.evaluateAt vs P.machine.width P.machine.policy = .ok (some n)) (σ : Moment) :
    Instruction.operate P op { σ with stack := vs.reverse ++ σ.stack }
      = .next (σ.push (.int n)) := by
  have hlength : vs.length = op.arity := by
    unfold ArithOp.evaluateAt at h
    split at h
    · cases h
    · rename_i hints
      rw [Bool.or_eq_true, not_or] at hints
      simpa using hints.1
  have hpop : Moment.popMany? op.arity { σ with stack := vs.reverse ++ σ.stack }
      = some (vs, σ) := by
    unfold Moment.popMany?
    have hreverse : vs.reverse.length = op.arity := by rw [List.length_reverse, hlength]
    dsimp only
    rw [if_pos (by rw [List.length_append]; omega), List.take_left' hreverse,
      List.drop_left' hreverse, List.reverse_reverse]
  unfold Instruction.operate
  rw [hpop]
  dsimp only
  rw [h]

theorem act_sizeOf {P : Platform} (hop : ins.opcode = some .sizeOf) {folder : Folder}
    (hP : P.machine = folder.machine) {type : String} {size : Value}
    (hsize : folder.sizeOf? ins = some (type, size)) (σ : Moment) :
    ins.act P σ = .next (σ.push size.fixed) := by
  unfold Folder.sizeOf? at hsize
  obtain ⟨text, htext, hfound⟩ := Option.bind_eq_some_iff.mp hsize
  obtain ⟨found, hget, heq⟩ := Option.map_eq_some_iff.mp hfound
  cases heq
  unfold Instruction.act Instruction.perform
  rw [Instruction.copy_opcode, hop]
  dsimp only
  rw [Instruction.copy_operand_text?, htext, Option.bind_some, hP, hget]

theorem act_arith (P : Platform) (hop : ins.opcode = some .arith) {op : ArithOp}
    (hoperand : ins.operand = .operation op) (σ : Moment) :
    ins.act P σ = Instruction.operate P op σ := by
  unfold Instruction.act Instruction.perform
  rw [Instruction.copy_opcode, hop]
  dsimp only
  rw [Instruction.copy_operand_operation.mpr hoperand]

/-! ## One more instruction -/

/-- The constants of entries in view. -/
theorem mapM_constant {entries : List FoldEntry} {vs : List Value}
    (h : entries.mapM (·.constant) = some vs) : entries.map (·.constant) = vs.map some := by
  induction entries generalizing vs with
  | nil => cases h; rfl
  | cons entry entries ih =>
    rw [List.mapM_cons] at h
    obtain ⟨v, hv, h⟩ := Option.bind_eq_some_iff.mp h
    obtain ⟨rest, hrest, h⟩ := Option.bind_eq_some_iff.mp h
    cases h
    rw [List.map_cons, List.map_cons, hv, ih hrest]

/-- An instruction that is left as it is. -/
theorem stay (h : Tracks machine b done f) (hnew : ∀ i ∈ done, i.uid ≠ ins.uid)
    (hnodup : (done.map (·.uid)).Nodup) {events : List FoldEvent} {constant : Option Value}
    (hevents : ∀ event ∈ events, event.edit? = none)
    (hconstant : ∀ c, constant = some c → ins.opcode = some .pushConst ∧ ins.operand = .value c) :
    Tracks machine b (done ++ [ins]) ((f.report events).see ins constant) := by
  have hedits : ((f.report events).see ins constant).edits = f.edits ++ [] := by
    rw [List.append_nil]
    exact edits_report_of_none hevents
  refine h.grow hnew hnodup [] f.view [] constant rfl ?_ (.nothing b ins) hedits rfl ?_
    fun P _ σ => rfl
  · exact fun _ he => absurd he List.not_mem_nil
  · intro c hc
    obtain ⟨hop, hoperand⟩ := hconstant c hc
    exact ⟨Or.inl hop, hop, hoperand⟩

/-- The edit of a size query whose answer is in the table. -/
theorem grows_size (hop : ins.opcode = some .sizeOf) (size : Value) (note : String) :
    Grows b [] ins [Edit.ofInstruction (.toConstant size) b ins note] where
  made e he := by
    rw [List.mem_singleton.mp he]
    exact ⟨rfl, Or.inr ⟨rfl, Or.inl hop, size, rfl⟩⟩
  gone _ hentry := absurd hentry List.not_mem_nil

theorem turned_constant (v : Value) (note : String) :
    Edit.turned [Edit.ofInstruction (.toConstant v) b ins note] ins
      = ins.become .pushConst (.value v) := by
  unfold Edit.turned
  rw [Edit.asked_ofInstruction, if_pos rfl]
  rfl

/-- A size query whose answer is in the table. -/
theorem sized {folder : Folder} (h : Tracks folder.machine b done f)
    (hnew : ∀ i ∈ done, i.uid ≠ ins.uid) (hnodup : (done.map (·.uid)).Nodup)
    (hop : ins.opcode = some .sizeOf) {type : String} {size : Value}
    (hsize : folder.sizeOf? ins = some (type, size)) :
    Tracks folder.machine b (done ++ [ins]) (Folder.foldSize b f ins type size) := by
  refine h.grow hnew hnodup [] f.view [Edit.ofInstruction (.toConstant size) b ins _]
    (some size) rfl ?_ (grows_size hop size _) (edits_report_queue f [] [_] (by simp)) rfl
    (fun c hc => ?_) fun P hP σ => ?_
  · exact fun _ he => absurd he List.not_mem_nil
  · cases hc
    rw [turned_constant]
    exact ⟨Or.inr (Or.inl hop), rfl, rfl⟩
  · rw [turned_constant, act_pushConst P rfl]
    exact act_sizeOf hop hP hsize σ

/-- Entries in view that are constants push their values. -/
theorem constants_push (h : Tracks machine b done f) {top : List FoldEntry}
    (htop : top ⊆ f.view) {vs : List Value}
    (hvs : top.reverse.mapM (·.constant) = some vs) (hints : ∀ v ∈ vs, ∃ k, v = .int k)
    (P : Platform) (σ : Moment) :
    Instruction.actAll P (top.reverse.map fun entry => Edit.turned f.edits entry.ins) σ
      = .next { σ with stack := vs.reverse ++ σ.stack } := by
  have hmap := mapM_constant hvs
  have hpushes : ∀ entry ∈ top.reverse, (Edit.turned f.edits entry.ins).opcode = some .pushConst
      ∧ (Edit.turned f.edits entry.ins).operand.toValue.fixed
        = (entry.constant.getD .null).fixed := by
    intro entry hentry
    obtain ⟨c, -, hc⟩ := List.mem_map.mp (hmap ▸ List.mem_map_of_mem hentry)
    obtain ⟨-, hop, hoperand⟩ := h.constants entry (htop (List.mem_reverse.mp hentry)) c hc.symm
    rw [hop, hoperand, ← hc]
    exact ⟨rfl, rfl⟩
  have hvalues : ((top.reverse.map fun entry => Edit.turned f.edits entry.ins).map
      (·.operand.toValue.fixed)) = vs := by
    rw [List.map_map]
    calc top.reverse.map ((fun i : Instruction => i.operand.toValue.fixed) ∘
            fun entry : FoldEntry => Edit.turned f.edits entry.ins)
        = top.reverse.map fun entry => (entry.constant.getD .null).fixed :=
          List.map_congr_left fun entry hentry => (hpushes entry hentry).2
      _ = (top.reverse.map (·.constant)).map fun c => (c.getD .null).fixed := by
          rw [List.map_map]; rfl
      _ = vs.map Value.fixed := by
          rw [hmap, List.map_map]; rfl
      _ = vs := by
          refine (List.map_congr_left fun v hv => ?_).trans (List.map_id vs)
          obtain ⟨k, rfl⟩ := hints v hv
          rfl
  rw [actAll_constants P, hvalues]
  intro i hi
  obtain ⟨entry, hentry, rfl⟩ := List.mem_map.mp hi
  exact (hpushes entry hentry).1

/-- The edits of an operation that folds. -/
theorem grows_operation {top : List FoldEntry} (hop : ins.opcode = some .arith) (n : Int)
    (note note' : String) : Grows b top ins
      (top.reverse.map (fun entry => Edit.ofInstruction .remove b entry.ins note)
        ++ [Edit.ofInstruction (.toConstant (.int n)) b ins note']) where
  made e he := by
    rcases List.mem_append.mp he with he | he
    · obtain ⟨entry, hentry, rfl⟩ := List.mem_map.mp he
      exact ⟨rfl, Or.inl ⟨entry, List.mem_reverse.mp hentry, rfl, rfl⟩⟩
    · rw [List.mem_singleton.mp he]
      exact ⟨rfl, Or.inr ⟨rfl, Or.inr hop, .int n, rfl⟩⟩
  gone entry hentry :=
    ⟨_, List.mem_append_left _ (List.mem_map_of_mem (List.mem_reverse.mpr hentry)), rfl, rfl⟩

theorem turned_operation (top : List FoldEntry) (v : Value) (note note' : String) :
    Edit.turned (top.reverse.map (fun entry => Edit.ofInstruction .remove b entry.ins note)
        ++ [Edit.ofInstruction (.toConstant v) b ins note']) ins
      = ins.become .pushConst (.value v) := by
  unfold Edit.turned
  rw [Edit.asked_append, Edit.asked_of_changes, Option.none_or, Edit.asked_ofInstruction, if_pos rfl]
  · rfl
  · intro e he
    obtain ⟨entry, -, rfl⟩ := List.mem_map.mp he
    rfl

/-- An operation that folds. -/
theorem operated {folder : Folder} (h : Tracks folder.machine b done f)
    (hnew : ∀ i ∈ done, i.uid ≠ ins.uid) (hnodup : (done.map (·.uid)).Nodup) {op : ArithOp}
    {vs : List Value} {n : Int} (hfolds : folder.Folds f ins op vs n) :
    Tracks folder.machine b (done ++ [ins]) (Folder.operated b f ins op n) := by
  refine h.grow hnew hnodup _ _ _ (some (.int n)) (List.take_append_drop op.arity f.view).symm
    (fun entry hentry => ?_) (grows_operation hfolds.opcode n _ _)
    (edits_report_queue _ [.consult] _ (by simp [FoldEvent.edit?])) rfl (fun c hc => ?_)
    fun P hP σ => ?_
  · have hmem : entry.constant ∈ vs.map some :=
      mapM_constant hfolds.constants ▸ List.mem_map_of_mem (List.mem_reverse.mpr hentry)
    obtain ⟨c, -, hc⟩ := List.mem_map.mp hmem
    rw [← hc]
    rfl
  · cases hc
    rw [turned_operation]
    exact ⟨Or.inr (Or.inr hfolds.opcode), rfl, rfl⟩
  · have hresult := hfolds.result
    rw [← hP] at hresult
    rw [turned_operation, h.constants_push (List.take_subset _ _) hfolds.constants
      (AbstractStack.integers_of_evaluateAt hfolds.result), Turn.andThen_next,
      act_arith P hfolds.opcode hfolds.operand, operate_pushed hresult, act_pushConst P rfl]
    rfl

theorem step {folder : Folder} (h : Tracks folder.machine b done f)
    (hnew : ∀ i ∈ done, i.uid ≠ ins.uid) (hnodup : (done.map (·.uid)).Nodup) :
    Tracks folder.machine b (done ++ [ins]) (folder.step b f ins) := by
  rcases folder.step_cases b f ins with ⟨events, constant, hevents, hconstant, hstep⟩
    | ⟨type, size, hop, hsize, hstep⟩ | ⟨op, vs, n, hfolds, hstep⟩
  · rw [hstep]
    exact h.stay hnew hnodup hevents hconstant
  · rw [hstep]
    exact h.sized hnew hnodup hop hsize
  · rw [hstep]
    exact h.operated hnew hnodup hfolds

end Tracks

end Folding

/-! ## A folded block -/

namespace Folder

/-- The edits that fold the constants of a block. -/
def edits (folder : Folder) (b : Block) : List Edit := (folder.foldBlock b).edits

variable {folder : Folder} {b : Block}

theorem tracks_foldl (folder : Folder) (b : Block) {code : List Instruction}
    (hnodup : (code.map (·.uid)).Nodup) :
    Folding.Tracks folder.machine b code (code.foldl (folder.step b) {}) := by
  induction code using List.reverseRecOn with
  | nil => exact .start folder.machine b
  | append_singleton code ins ih =>
    rw [List.map_append, List.nodup_append] at hnodup
    obtain ⟨hcode, -, hapart⟩ := hnodup
    rw [List.foldl_append]
    exact (ih hcode).step (fun i hi => hapart _ (List.mem_map_of_mem hi) _
      (List.mem_singleton_self _)) hcode

theorem foldBlock_tracks (folder : Folder) (hnodup : (b.code.map (·.uid)).Nodup) :
    Folding.Tracks folder.machine b b.code (folder.foldBlock b) :=
  folder.tracks_foldl b hnodup

/-- Where nothing has been folded nothing is to be done. -/
theorem edits_of_count (h : (folder.foldBlock b).count = 0) : folder.edits b = [] := by
  unfold edits
  unfold foldBlock at h ⊢
  generalize b.code = code at h
  induction code using List.reverseRecOn with
  | nil => rfl
  | append_singleton code ins ih =>
    rw [List.foldl_append] at h ⊢
    generalize code.foldl (folder.step b) {} = f at h ih
    change (folder.step b f ins).count = 0 at h
    show (folder.step b f ins).edits = []
    rcases folder.step_cases b f ins with ⟨events, constant, hevents, -, hstep⟩
      | ⟨type, size, -, -, hstep⟩ | ⟨op, vs, n, -, hstep⟩
    · rw [hstep] at h ⊢
      exact (Folding.edits_report_of_none hevents).trans (ih h)
    · rw [hstep] at h
      exact absurd h (Nat.succ_ne_zero _)
    · rw [hstep] at h
      exact absurd h (Nat.succ_ne_zero _)

/-- The instruction that an edit names, given that another one has its number. -/
theorem computes_of_named (hnodup : (b.code.map (·.uid)).Nodup) {ins : Instruction}
    (hins : ins ∈ b.code) {e : Edit} (he : e ∈ folder.edits b) (hnames : e.names ins.uid = true) :
    ins.Computes
      ∧ (e.change = .remove ∨ ins.IsFoldable ∧ ∃ v, e.change = .toConstant v) := by
  obtain ⟨i, hi, -, huid, hcomputes, hchange⟩ := (foldBlock_tracks folder hnodup).named e he
  rw [Edit.names_eq huid] at hnames
  rw [← List.inj_on_of_nodup_map hnodup hi hins (eq_of_beq hnames)]
  exact ⟨hcomputes, hchange⟩

/-- The edits that fold the constants of a block name instructions of it. -/
theorem edits_within (folder : Folder) (hnodup : (b.code.map (·.uid)).Nodup) :
    ∀ e ∈ folder.edits b, e.Within b := by
  intro e he
  obtain ⟨ins, hins, hblock, huid, -⟩ := (foldBlock_tracks folder hnodup).named e he
  exact ⟨hblock, ins, hins, huid⟩

/-- The edits that fold constants suit every well-formed graph. -/
theorem suits (folder : Folder) {g : Graph} (h : g.Formed) : Edit.Suits g folder.edits where
  within b hb := folder.edits_within (h.block_uids_nodup hb)
  mild b hb ins hins := by
    have hplain (e : Edit) (he : e ∈ folder.edits b) :=
      (foldBlock_tracks folder (h.block_uids_nodup hb)).plain he
    constructor
    · intro t ht
      obtain ⟨e, he, -, hpick⟩ := Edit.exists_of_asked ht
      rcases hplain e he with hchange | ⟨v, hchange⟩ <;> rw [hchange] at hpick <;> cases hpick
    · intro v hv
      obtain ⟨e, he, hnames, -⟩ := Edit.exists_of_asked hv
      rcases (computes_of_named (h.block_uids_nodup hb) hins he hnames).1 with hop | hop | hop <;>
        rw [hop] <;> nofun
    · intro op hop
      obtain ⟨e, he, -, hpick⟩ := Edit.exists_of_asked hop
      rcases hplain e he with hchange | ⟨v, hchange⟩ <;> rw [hchange] at hpick <;> cases hpick

/-- Folding drops constants, and makes a constant of what computes it. -/
theorem gentle (folder : Folder) (hnodup : (b.code.map (·.uid)).Nodup) {ins : Instruction}
    (hins : ins ∈ b.code) : Edit.Gentle (folder.edits b) ins := by
  constructor
  · intro hsome
    obtain ⟨u, hasked⟩ := Option.isSome_iff_exists.mp hsome
    obtain ⟨e, he, hnames, -⟩ := Edit.exists_of_asked hasked
    exact (computes_of_named hnodup hins he hnames).1.isDroppable
  all_goals
    intro a ha
    obtain ⟨e, he, hnames, hpick⟩ := Edit.exists_of_asked ha
    rcases (computes_of_named hnodup hins he hnames).2 with hchange | ⟨hfolds, v, hchange⟩
    · rw [hchange] at hpick
      cases hpick
    · rw [hchange] at hpick
      cases hpick <;> exact hfolds

/-- A block keeps its end when its constants are folded. -/
theorem keepsEnd (folder : Folder) {g : Graph} (h : g.Formed) (hb : b ∈ g.blocks)
    (number : Int → Int) :
    Graph.KeepsEnd g.terminators b.code
      (b.code.flatMap (Edit.outcome (folder.edits b) number)) := by
  have hnodup := h.block_uids_nodup hb
  refine Graph.keepsEnd_flatMap (h.straight _ (Graph.mem_outline_of_mem hb))
    (fun ins hins hends => Edit.outcome_of_not_named (fun e he => ?_) number)
    fun ins hins hends j hj => ?_
  · refine Bool.eq_false_iff.mpr fun hnames => ?_
    rw [(computes_of_named hnodup hins he hnames).1.straight] at hends
    cases hends
  · have hmild := (suits folder h).mild b hb ins hins
    rcases Edit.mem_outcome hj with rfl | ⟨op, hop, rfl⟩
    · exact hmild.turned_straight hends
    · exact hmild.front_straight hop _ _

/-- The graph with the constants of its blocks folded. -/
def folded (folder : Folder) (g : Graph) : Graph :=
  (g.edited (g.blocks.flatMap folder.edits)).graph

variable {g : Graph}

theorem folded_pruned (folder : Folder) (h : g.Pruned) : (folder.folded g).Pruned := by
  obtain ⟨number, hchanged⟩ := h.formed.changed h.linked (suits folder h.formed)
  exact ⟨hchanged.formed, hchanged.linked, hchanged.reached h.formed h.linked
    (fun b hb => keepsEnd folder h.formed hb number) h.reached⟩

/-- Folding constants changes nothing that a run can show. -/
theorem folded_kept (folder : Folder) (h : g.Formed) (hlinked : g.Linked) {P : Platform}
    (hP : P.machine = folder.machine) : g.Kept P (folder.folded g) := by
  obtain ⟨number, hchanged⟩ := h.changed hlinked (suits folder h)
  refine hchanged.kept_always h (suits folder h) fun b hb σ => ?_
  have htracks := foldBlock_tracks folder (h.block_uids_nodup hb)
  rw [edits, htracks.code, ← htracks.shows P hP]
  exact .same _

theorem folded_headed (folder : Folder) (h : g.Headed) (hformed : g.Formed)
    (hlinked : g.Linked) : (folder.folded g).Headed := by
  have hsuits := suits folder hformed
  obtain ⟨number, hchanged⟩ := hformed.changed hlinked hsuits
  refine h.changed hformed hsuits hchanged fun b hb _ ins _ =>
    Edit.asked_of_changes (fun e he => ?_) _
  rcases (foldBlock_tracks folder (hformed.block_uids_nodup hb)).plain he with hc | ⟨v, hc⟩ <;>
    rw [hc] <;> rfl

/-- How many computations are folded in a graph. -/
def count (folder : Folder) (g : Graph) : Nat :=
  Number.totalSize ((g.blocks.map folder.foldBlock).map (·.count))

theorem totalSize_eq_zero {ns : List Nat} : Number.totalSize ns = 0 ↔ ∀ n ∈ ns, n = 0 := by
  induction ns with
  | nil => simp [Number.totalSize]
  | cons n ns ih =>
    rw [List.forall_mem_cons, ← ih]
    show n + Number.totalSize ns = 0 ↔ _
    omega

theorem count_eq_zero : folder.count g = 0 ↔ ∀ b ∈ g.blocks, (folder.foldBlock b).count = 0 := by
  rw [count, totalSize_eq_zero, List.map_map]
  exact List.forall_mem_map

theorem edits_eq_nil (hcount : folder.count g = 0) : g.blocks.flatMap folder.edits = [] :=
  List.flatMap_eq_nil_iff.mpr fun b hb => edits_of_count (count_eq_zero.mp hcount b hb)

/-- Where nothing is folded the graph is as it was. -/
theorem folded_of_count (hcount : folder.count g = 0) : folder.folded g = g := by
  rw [folded, edits_eq_nil hcount]
  rfl

end Folder

/-! ## The stage -/

namespace Stage

/-- What an event does when it succeeds. -/
theorem foldEvent_eq_ok {event : FoldEvent} {w w' : Workbench} {edits : List Edit}
    (h : (foldEvent event).run w = .ok edits w') :
    edits = event.edit?.toList ∧ w'.graph = w.graph ∧ w'.analysis = w.analysis
      ∧ w'.issues = w.issues ∧ (w.Informed → w'.Informed) := by
  have hsays {x : Work Unit} {result : List Edit} (hx : Work.Says x ())
      (h : (x >>= fun _ => pure result).run w = .ok edits w') :
      edits = result ∧ w'.graph = w.graph ∧ w'.analysis = w.analysis
        ∧ w'.issues = w.issues ∧ (w.Informed → w'.Informed) := by
    obtain ⟨_, w₁, hlog, h⟩ := Work.bind_eq_ok.mp h
    obtain ⟨rfl, rfl⟩ := Work.pure_eq_ok.mp h
    have halike := (hx.alike hlog).2
    exact ⟨rfl, halike.graph, halike.analysis, halike.issues, halike.informed⟩
  unfold foldEvent at h
  cases event with
  | queue e => exact hsays (Work.says_logQueued e) h
  | note text => exact hsays (Work.says_log _ _ _) h
  | fault m => exact absurd h Work.throw_ne_ok
  | consult =>
    obtain ⟨_, w₁, hfacts, h⟩ := Work.bind_eq_ok.mp h
    obtain ⟨rfl, rfl⟩ := Work.pure_eq_ok.mp h
    obtain ⟨hgraph, hanalysis, hissues, -⟩ := Work.facts_eq_ok hfacts
    exact ⟨rfl, hgraph, hanalysis, hissues, fun hw => hw.facts hfacts⟩

theorem foldEvents_eq_ok {events : List FoldEvent} {w w' : Workbench} {edits : List (List Edit)}
    (h : (events.mapM foldEvent).run w = .ok edits w') :
    edits.flatten = events.filterMap FoldEvent.edit? ∧ w'.graph = w.graph
      ∧ w'.analysis = w.analysis ∧ w'.issues = w.issues ∧ (w.Informed → w'.Informed) := by
  induction events generalizing w edits with
  | nil =>
    obtain ⟨rfl, rfl⟩ := Work.pure_eq_ok.mp h
    exact ⟨rfl, rfl, rfl, rfl, id⟩
  | cons event events ih =>
    rw [List.mapM_cons] at h
    obtain ⟨first, w₁, hfirst, h⟩ := Work.bind_eq_ok.mp h
    obtain ⟨others, w₂, hothers, h⟩ := Work.bind_eq_ok.mp h
    obtain ⟨rfl, rfl⟩ := Work.pure_eq_ok.mp h
    obtain ⟨rfl, hgraph₁, hanalysis₁, hissues₁, hinformed₁⟩ := foldEvent_eq_ok hfirst
    obtain ⟨hedits, hgraph₂, hanalysis₂, hissues₂, hinformed₂⟩ := ih hothers
    refine ⟨?_, hgraph₂.trans hgraph₁, hanalysis₂.trans hanalysis₁, hissues₂.trans hissues₁,
      fun hw => hinformed₂ (hinformed₁ hw)⟩
    rw [List.flatten_cons, hedits, List.filterMap_cons]
    cases event.edit? <;> rfl

/-- The facts that are folded with are those of the graph. -/
theorem folder_facts (s : Stage) {w : Workbench} (hw : w.Informed) :
    (s.folder w).facts = w.analysis.facts w.graph := by
  show w.facts.getD _ = _
  cases hf : w.facts with
  | none => rfl
  | some f => exact Analysis.findings_eq_ok (hw f hf)

/-- Folding constants, when it succeeds, where targets can be looked up after it. -/
theorem foldConstants_within {s : Stage} {w w' : Workbench} {n : Nat} (h : w.graph.Numbered)
    (hlasts : ((s.folder w).folded w.graph).checkLasts = .ok ())
    (hrun : s.foldConstants.run w = .ok n w') :
    n = (s.folder w).count w.graph ∧ w'.graph = (s.folder w).folded w.graph
      ∧ w'.analysis = w.analysis ∧ w'.issues = w.issues
      ∧ (n = 0 → w.Informed → w'.Informed) := by
  unfold foldConstants at hrun
  rw [Work.get_bind] at hrun
  change EStateM.run (do
    let edits ← ((w.graph.blocks.map (s.folder w).foldBlock).flatMap (·.events)).mapM foldEvent
    if 0 < (s.folder w).count w.graph then
      let _ ← Work.applyEdits edits.flatten
      Work.log "CFEX.pass.fold" Level.info
        ("Folded " ++ toString ((s.folder w).count w.graph) ++ " constant computation(s)")
    return (s.folder w).count w.graph) w = _ at hrun
  generalize s.folder w = folder at hrun hlasts
  obtain ⟨edits, w₁, hevents, hrun⟩ := Work.bind_eq_ok.mp hrun
  obtain ⟨hedits, hgraph, hanalysis, hissues, hinformed⟩ := foldEvents_eq_ok hevents
  have hall : edits.flatten = w.graph.blocks.flatMap folder.edits := by
    rw [hedits, List.flatMap_map, List.filterMap_flatMap]
    rfl
  by_cases hcount : folder.count w.graph = 0
  · rw [if_neg (by omega)] at hrun
    obtain ⟨rfl, rfl⟩ := Work.pure_eq_ok.mp hrun
    exact ⟨rfl, hgraph.trans (Folder.folded_of_count hcount).symm, hanalysis, hissues,
      fun _ => hinformed⟩
  · rw [if_pos (by omega), hall] at hrun
    obtain ⟨w₂, happly, halike₂⟩ := Work.applyEdits_within (w := w₁) folder.edits
      (hgraph ▸ h) (fun b hb => folder.edits_within (h.block_uids_nodup (hgraph ▸ hb)))
      (hgraph.symm ▸ hlasts)
    rw [hgraph] at happly halike₂
    obtain ⟨_, w₃, happly', hrun⟩ := Work.bind_eq_ok.mp hrun
    rw [happly] at happly'
    cases happly'
    obtain ⟨_, w₄, hlog, hrun⟩ := Work.bind_eq_ok.mp hrun
    obtain ⟨rfl, rfl⟩ := Work.pure_eq_ok.mp hrun
    have halike := halike₂.trans ((Work.says_log _ _ _).alike hlog).2
    exact ⟨rfl, halike.graph, halike.analysis.trans hanalysis, halike.issues.trans hissues,
      fun hzero => absurd hzero hcount⟩

/-- Folding constants of a well-formed graph, when it succeeds. -/
theorem foldConstants_eq_ok {s : Stage} {w w' : Workbench} {n : Nat} (h : w.graph.Formed)
    (hlinked : w.graph.Linked) (hrun : s.foldConstants.run w = .ok n w') :
    n = (s.folder w).count w.graph ∧ w'.graph = (s.folder w).folded w.graph
      ∧ w'.analysis = w.analysis ∧ w'.issues = w.issues
      ∧ (n = 0 → w.Informed → w'.Informed) := by
  obtain ⟨number, hchanged⟩ := h.changed hlinked (Folder.suits (s.folder w) h)
  exact foldConstants_within h.numbered hchanged.formed.checkLasts hrun

end Stage

end Untangle
