/-
  Untangle.Proofs.Renaming.Facts

  The single pass over a graph with another numbering. Running an instruction reads no uid, and
  what a block is entered with depends on which blocks lead to it and not on their labels; so the
  pass finds the same facts about the same instructions, or stops at the same fault.
-/
import Untangle.Proofs.Abstract.Course
import Untangle.Proofs.Renaming.Graph

namespace Untangle.Renaming

open AbstractStack

variable (σ : Renaming)

def fact (e : Fact) : Fact := { e with uid := σ e.uid }

def facts (f : Facts) : Facts := ⟨f.entries.map σ.fact⟩

def report : Report → Report
  | .overflow ins o => .overflow (σ.instruction ins) o
  | .fault m => .fault m

def arrival (a : Arrival) : Arrival := (σ.block a.1, a.2)

/-! ## Running code -/

/-- Instructions that do not branch keep their operands. -/
theorem instruction_of_not_branch {ins : Instruction} (h : ins.isBranch = false) :
    σ.instruction ins = { ins with uid := σ ins.uid } :=
  congrArg (fun operand => { ins with uid := σ ins.uid, operand }) (σ.operand_of_not_branch h)

@[simp] theorem instruction_step (m : Machine) (ins : Instruction) (s : AbstractStack) :
    step m (σ.instruction ins) s = step m ins s := by
  cases hbranch : ins.isBranch with
  | false =>
    rw [σ.instruction_of_not_branch hbranch]
    rfl
  | true =>
    -- Of a branch only the opcode and the mnemonic count.
    unfold Instruction.isBranch at hbranch
    unfold step
    rw [instruction_opcode]
    cases hop : ins.opcode with
    | none => rfl
    | some op =>
      rw [hop] at hbranch
      cases op with
      | branch | condBranch | switch | leave => rfl
      | _ => cases hbranch

theorem instruction_ofEffect? (ins : Instruction) :
    Report.ofEffect? (σ.instruction ins) = (Report.ofEffect? ins).map σ.report := by
  unfold Report.ofEffect?
  rw [instruction_effect]
  split
  · rfl
  · rw [show (σ.instruction ins).declaredEffect = ins.declaredEffect from rfl]
    split <;> rfl
  · rfl

/-- There is the same to tell, of the instruction with its other uid. -/
theorem instruction_of? (m : Machine) (ins : Instruction) (s : AbstractStack) :
    Report.of? m (σ.instruction ins) s = (Report.of? m ins s).map σ.report := by
  have hoperand : ins.opcode.any Opcode.isBranch = false →
      (σ.instruction ins).operand = ins.operand := σ.operand_of_not_branch
  unfold Report.of?
  rw [instruction_opcode]
  cases hop : ins.opcode with
  | none => exact σ.instruction_ofEffect? ins
  | some op =>
    cases op with
    | other => exact σ.instruction_ofEffect? ins
    | arith =>
      rw [hop] at hoperand
      rw [hoperand rfl]
      cases ins.operand with
      | value v => rfl
      | operation op =>
        dsimp only
        cases evaluate m op (s.popMany op.arity).1 with
        | ok v => rfl
        | error f => cases f <;> rfl
    | sizeOf =>
      rw [hop] at hoperand
      rw [hoperand rfl]
      cases ins.operand with
      | operation op => rfl
      | value v =>
        cases v with
        | str type => cases m.sizes <;> rfl
        | _ => rfl
    | condBranch =>
      dsimp only
      rw [instruction_mnemonic]
      split <;> rfl
    | _ => rfl

@[simp] theorem transfer (m : Machine) (code : List Instruction) (s : AbstractStack) :
    AbstractStack.transfer m (code.map σ.instruction) s = AbstractStack.transfer m code s := by
  unfold AbstractStack.transfer
  rw [List.foldl_map]
  simp only [instruction_step]

theorem factsOf (m : Machine) (code : List Instruction) (s : AbstractStack) :
    Arrival.factsOf m (code.map σ.instruction) s = (Arrival.factsOf m code s).map σ.fact := by
  induction code generalizing s with
  | nil => rfl
  | cons ins rest ih =>
    rw [List.map_cons, Arrival.factsOf, Arrival.factsOf, instruction_step, List.map_cons]
    exact congrArg _ (ih _)

theorem ofCode (m : Machine) (code : List Instruction) (s : AbstractStack) :
    Report.ofCode m (code.map σ.instruction) s = (Report.ofCode m code s).map σ.report := by
  induction code generalizing s with
  | nil => rfl
  | cons ins rest ih =>
    rw [List.map_cons, Report.ofCode, Report.ofCode, instruction_step, instruction_of?, ih]
    cases Report.of? m ins s with
    | none => rfl
    | some r => cases r <;> rfl

theorem isOnly (label : Int) (labels : List Int) :
    Forward.isOnly (σ label) (labels.map σ) = Forward.isOnly label labels := by
  unfold Forward.isOnly
  rw [List.isEmpty_map, List.all_map]
  congr 2
  funext l
  exact σ.beq_eq l label

theorem entryOf (roots : List (Int × AbstractStack)) (before : Option (Int × AbstractStack))
    (b : Block) :
    Forward.entryOf (roots.map fun e => (σ e.1, e.2)) (before.map fun e => (σ e.1, e.2)) (σ.block b)
      = Forward.entryOf roots before b := by
  have hroot : (roots.map fun e => (σ e.1, e.2)).lookup (σ b.label) = roots.lookup b.label :=
    (σ.lookup id roots b.label).trans Option.map_id_apply
  unfold Forward.entryOf
  rw [show (σ.block b).label = σ b.label from rfl, hroot]
  cases roots.lookup b.label with
  | some s => rfl
  | none =>
    cases before with
    | none => rfl
    | some e =>
      show (if Forward.isOnly (σ e.1) (b.preds.map σ) = true then _ else _) = _
      rw [isOnly]

theorem arrivalsFrom (m : Machine) (roots : List (Int × AbstractStack))
    (before : Option (Int × AbstractStack)) (blocks : List Block) :
    Forward.arrivalsFrom m (roots.map fun e => (σ e.1, e.2)) (before.map fun e => (σ e.1, e.2))
        (blocks.map σ.block)
      = (Forward.arrivalsFrom m roots before blocks).map σ.arrival := by
  induction blocks generalizing before with
  | nil => rfl
  | cons b rest ih =>
    have hrest := ih (some (b.label, AbstractStack.transfer m b.code
      (Forward.entryOf roots before b)))
    rw [List.map_cons, Forward.arrivalsFrom, Forward.arrivalsFrom, entryOf, List.map_cons, ← hrest,
      show (σ.block b).code = b.code.map σ.instruction from rfl, transfer]
    rfl

variable {a : Analysis}

@[simp] theorem facts_knownInt? (f : Facts) (u : Int) :
    (σ.facts f).knownInt? (σ u) = f.knownInt? u := by
  have hfind : (σ.facts f).find? (σ u) = (f.find? u).map σ.fact := by
    show (f.entries.map σ.fact).find? (fun e => e.uid == σ u) = _
    rw [List.find?_map]
    refine congrArg (fun p => (f.entries.find? p).map σ.fact) (funext fun e => ?_)
    exact σ.beq_eq e.uid u
  unfold Facts.knownInt?
  rw [hfind]
  cases f.find? u <;> rfl

end Untangle.Renaming
