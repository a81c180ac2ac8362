/-
  Untangle.Proofs.Renaming.Basic

  Renaming the uids of a method: in its instructions, in the targets of its branches and in the
  boundaries of its regions. A renaming takes no two uids to one. What a method says of itself,
  uids apart, stays under it: where a value leads, which branches are followed, and the kinds of
  the defects that the checks find.
-/
import Untangle.Proofs.Execution.Flow
import Untangle.Proofs.Lists
import Untangle.Validate

namespace Untangle

/-- A renaming of uids, and of the fractions that stand for some. -/
structure Renaming where
  uid : Int → Int
  injective : Function.Injective uid
  fraction : Float → Float := id

instance : CoeFun Renaming fun _ => Int → Int := ⟨Renaming.uid⟩

/-- A value that names a uid, renamed. -/
def Renaming.value (σ : Renaming) : Value → Value
  | .bool b => .int (σ (if b then 1 else 0))
  | .int n => .int (σ n)
  | .float x => .float (σ.fraction x)
  | v => v

/-- A value that names, once it is renamed, what becomes of the uid that it names. All do but
    fractions that are taken elsewhere (`Value.follows`). -/
def Value.Follows (v : Value) (σ : Renaming) : Prop :=
  (σ.value v).wholeNumber? = v.wholeNumber?.map σ

/-- An instruction whose targets follow a renaming. -/
def Instruction.Follows (ins : Instruction) (σ : Renaming) : Prop := ∀ t ∈ ins.aims, t.Follows σ

/-- A region whose boundaries follow a renaming. -/
def Region.Follows (r : Region) (σ : Renaming) : Prop := ∀ v ∈ r.boundaries, v.Follows σ

theorem Region.Follows.boundaries {r : Region} {σ : Renaming} (h : r.Follows σ) :
    r.tryStart.Follows σ ∧ r.tryEnd.Follows σ ∧ r.handlerStart.Follows σ
      ∧ r.handlerEnd.Follows σ := by
  simp only [Region.Follows, Region.boundaries, List.forall_mem_cons] at h
  obtain ⟨hts, hte, hhs, hhe, -⟩ := h
  exact ⟨hts, hte, hhs, hhe⟩

/-- A method in which all that is named follows a renaming. -/
structure Method.Follows (m : Method) (σ : Renaming) : Prop where
  code : ∀ ins ∈ m.code, ins.Follows σ
  regions : ∀ r ∈ m.regions, r.Follows σ

/-- Where no uid is named as a fraction, any renaming is followed. -/
theorem Value.follows {v : Value} (h : ∀ x, v ≠ .float x) (σ : Renaming) : v.Follows σ := by
  cases v with
  | float x => exact absurd rfl (h x)
  | _ => rfl

namespace Renaming

variable (σ : Renaming)

/-- The targets of a dispatch, renamed. -/
def dispatch : Value → Value
  | .list ts => .list (ts.map σ.value)
  | .tuple ts => .tuple (ts.map σ.value)
  | v => v

/-- The operand of an instruction with the targets in it renamed. -/
def operand (ins : Instruction) : Operand :=
  match ins.operand with
  | .operation op => .operation op
  | .value v =>
    if !ins.isBranch then .value v
    else if ins.opcode == some .switch then .value (σ.dispatch v)
    else .value (σ.value v)

/-- An instruction with its uid and its targets renamed. -/
def instruction (ins : Instruction) : Instruction :=
  { ins with uid := σ ins.uid, operand := σ.operand ins }

def region (r : Region) : Region :=
  { r with
    tryStart := σ.value r.tryStart, tryEnd := σ.value r.tryEnd
    handlerStart := σ.value r.handlerStart, handlerEnd := σ.value r.handlerEnd }

/-- A method with another numbering. -/
def method (m : Method) : Method :=
  { m with code := m.code.map σ.instruction, regions := m.regions.map σ.region }

@[simp] theorem eq_iff {a b : Int} : σ a = σ b ↔ a = b := σ.injective.eq_iff

@[simp] theorem beq_eq (a b : Int) : (σ a == σ b) = (a == b) := by
  rw [Bool.eq_iff_iff, beq_iff_eq, beq_iff_eq, eq_iff]

/-! ## Values -/

@[simp] theorem value_asInt? (v : Value) : (σ.value v).asInt? = v.asInt?.map σ := by
  cases v <;> rfl

@[simp] theorem value_isKey (v : Value) : (σ.value v).isKey = v.isKey := by
  cases v <;> rfl

@[simp] theorem value_asKey (v : Value) : (σ.value v).asKey = v.asKey.map σ.value := by
  unfold Value.asKey
  rw [value_isKey]
  split <;> rfl

@[simp] theorem dispatch_truthy (v : Value) : (σ.dispatch v).truthy = v.truthy := by
  cases v with
  | list ts => cases ts <;> rfl
  | tuple ts => cases ts <;> rfl
  | _ => rfl

/-- Texts name no uid. -/
theorem map_strs {α : Type} (f : α → String) (items : List α) :
    items.map (fun a => Value.str (f a))
      = (items.map fun a => Value.str (f a)).map σ.value := by
  rw [List.map_map]
  rfl

@[simp] theorem dispatch_items (v : Value) :
    (σ.dispatch v).items = v.items.map fun ts => ts.map σ.value := by
  cases v with
  | str s => exact congrArg Except.ok (σ.map_strs _ s.toList)
  | dict entries => exact congrArg Except.ok (σ.map_strs _ entries)
  | _ => rfl

/-! ## Instructions -/

section Instructions

variable {ins : Instruction}

@[simp] theorem instruction_uid (ins : Instruction) : (σ.instruction ins).uid = σ ins.uid := rfl

@[simp] theorem instruction_opcode (ins : Instruction) :
    (σ.instruction ins).opcode = ins.opcode := rfl

@[simp] theorem instruction_mnemonic (ins : Instruction) :
    (σ.instruction ins).mnemonic = ins.mnemonic := rfl

@[simp] theorem instruction_effect (ins : Instruction) :
    (σ.instruction ins).effect = ins.effect := rfl

@[simp] theorem instruction_isBranch (ins : Instruction) :
    (σ.instruction ins).isBranch = ins.isBranch := rfl

theorem operand_of_not_branch (h : ins.isBranch = false) :
    (σ.instruction ins).operand = ins.operand := by
  show σ.operand ins = _
  unfold operand
  split
  · rename_i op hop
    exact hop.symm
  · rename_i v hv
    rw [h, hv]
    rfl

/-- The operand of a branch that is no dispatch names its target. -/
theorem operand_of_single (hb : ins.isBranch = true) (hs : ins.opcode ≠ some .switch) :
    (σ.instruction ins).operand.toValue = σ.value ins.operand.toValue := by
  show (σ.operand ins).toValue = _
  unfold operand
  split
  · rename_i op hop
    rw [hop]
    rfl
  · rename_i v hv
    rw [hv, hb, if_neg (by decide), if_neg (fun h => hs (beq_iff_eq.mp h))]
    rfl

/-- The operand of a dispatch lists its targets. -/
theorem operand_of_dispatch (hs : ins.opcode = some .switch) :
    (σ.instruction ins).operand.toValue = σ.dispatch ins.operand.toValue := by
  have hb : ins.isBranch = true := Instruction.isBranch_of_opcode hs
  show (σ.operand ins).toValue = _
  unfold operand
  split
  · rename_i op hop
    rw [hop]
    rfl
  · rename_i v hv
    rw [hv, hb, if_neg (by decide), if_pos (beq_iff_eq.mpr hs)]
    rfl

@[simp] theorem instruction_isNone (ins : Instruction) :
    (σ.instruction ins).operand.isNone = ins.operand.isNone := by
  show (σ.operand ins).isNone = _
  unfold operand
  split
  · rename_i op hop
    rw [hop]
  · rename_i v hv
    rw [hv]
    split
    · rfl
    · split <;> cases v <;> rfl

/-- The targets of a renamed branch are those of the branch, renamed. -/
@[simp] theorem instruction_targets (ins : Instruction) :
    (σ.instruction ins).targets = ins.targets.map fun ts => ts.map σ.value := by
  unfold Instruction.targets
  rw [instruction_isBranch, instruction_opcode, instruction_isNone]
  split
  · rfl
  rename_i hb
  rw [Bool.not_eq_true', Bool.not_eq_false] at hb
  split
  · rename_i hs
    rw [σ.operand_of_dispatch (beq_iff_eq.mp hs)]
    dsimp only
    rw [dispatch_truthy, dispatch_items]
    split <;> rfl
  · rename_i hs
    rw [σ.operand_of_single hb fun h => hs (beq_iff_eq.mpr h)]
    split <;> rfl

@[simp] theorem instruction_aims (ins : Instruction) :
    (σ.instruction ins).aims = ins.aims.map σ.value := by
  unfold Instruction.aims
  rw [instruction_targets]
  cases ins.targets <;> rfl

@[simp] theorem instruction_checkTargets (ins : Instruction) :
    (σ.instruction ins).checkTargets = ins.checkTargets := by
  unfold Instruction.checkTargets
  rw [instruction_targets]
  cases ins.targets with
  | error e => rfl
  | ok ts =>
    change ((ts.map σ.value).mapM Value.asKey >>= fun _ => pure ())
      = (ts.mapM Value.asKey >>= fun _ => pure ())
    rw [mapM_map_map fun v => σ.value_asKey v]
    cases ts.mapM Value.asKey <;> rfl

/-- Numbers in the targets of a branch are renamed, where they are whole ones. -/
theorem instruction_targetUids (h : ins.Follows σ) :
    (σ.instruction ins).targetUids = ins.targetUids.map σ := by
  have huids (i : Instruction) : i.targetUids = i.aims.filterMap Value.wholeNumber? := by
    unfold Instruction.targetUids Instruction.aims
    cases i.targets <;> rfl
  rw [huids, huids, instruction_aims, List.filterMap_map, List.map_filterMap]
  refine List.filterMap_congr fun t ht => ?_
  exact h t ht

/-- A copy of a renamed instruction is the copy, renamed. -/
theorem instruction_copy (ins : Instruction) :
    (σ.instruction ins).copy = σ.instruction ins.copy := by
  obtain ⟨opcode, operand, uid, mnemonic, effect⟩ := ins
  cases operand with
  | operation op => rfl
  | value v =>
    cases opcode with
    | none => cases v <;> rfl
    | some op => cases op <;> cases v <;> rfl

end Instructions

/-! ## Methods -/

section Methods

variable {code : List Instruction}

@[simp] theorem place? (code : List Instruction) (u : Int) :
    Method.place? (code.map σ.instruction) (σ u) = Method.place? code u := by
  unfold Method.place?
  rw [List.findIdx?_map]
  congr 1
  funext ins
  exact σ.beq_eq ins.uid u

theorem placeOf? {v : Value} (h : v.Follows σ) :
    Method.placeOf? (code.map σ.instruction) (σ.value v) = Method.placeOf? code v := by
  unfold Method.placeOf?
  rw [h]
  cases v.wholeNumber? with
  | none => rfl
  | some n => exact σ.place? code n

@[simp] theorem method_checkNames (m : Method) : (σ.method m).checkNames = m.checkNames := by
  have hcode : (m.code.map σ.instruction).forM Instruction.checkTargets
      = m.code.forM Instruction.checkTargets := by
    refine List.forM_map.trans ?_
    simp only [instruction_checkTargets]
    rfl
  have hkey (v : Value) : ((σ.value v).asKey >>= fun _ => pure () : Except Misuse Unit)
      = v.asKey >>= fun _ => pure () := by
    rw [value_asKey]
    cases v.asKey <;> rfl
  have hregions : ((m.regions.map σ.region).forM fun r =>
        r.boundaries.forM fun v => (v.asKey >>= fun _ => pure () : Except Misuse Unit))
      = m.regions.forM fun r => r.boundaries.forM fun v => v.asKey >>= fun _ => pure () := by
    refine List.forM_map.trans (congrArg (List.forM m.regions) (funext fun r => ?_))
    show ((r.boundaries.map σ.value).forM fun v => v.asKey >>= fun _ => pure ()) = _
    exact List.forM_map.trans (congrArg (List.forM r.boundaries) (funext hkey))
  exact congrArg₂ (fun (x y : Except Misuse Unit) => x >>= fun _ => y) hcode hregions

end Methods

end Renaming

end Untangle
