/-
  Untangle.Proofs.Renaming.Stage

  What the stages make of a graph with another numbering. Which dispatches are resolved, which
  instructions are dropped and which computations are folded is read off opcodes, constants and
  facts; so the same is done to the same instructions, and the graphs that are left differ by
  their numbering only.
-/
import Untangle.Proofs.Renaming.Edit
import Untangle.Proofs.Renaming.Facts
import Untangle.Proofs.Stage.Fold
import Untangle.Proofs.Stage.Junk
import Untangle.Proofs.Stage.Resolve

namespace Untangle.Renaming

variable {σ : Renaming} {g : Graph}

section Dispatches

/-- What becomes of a dispatch with its target renamed. -/
def choice (σ : Renaming) : Dispatch → Dispatch
  | .chosen n t => .chosen n (σ.value t)
  | d => d

/-- The operands of a store and of a load name no uid. -/
theorem stored_and_loaded (store load : Instruction) :
    (store.opcode == some .storeLocal && load.opcode == some .loadLocal
        && (σ.instruction store).operand.toValue.equal (σ.instruction load).operand.toValue)
      = (store.opcode == some .storeLocal && load.opcode == some .loadLocal
        && store.operand.toValue.equal load.operand.toValue) := by
  rw [Bool.eq_iff_iff, Bool.and_eq_true, Bool.and_eq_true (_ && _)]
  refine and_congr_right fun hops => ?_
  obtain ⟨hstore, hload⟩ := Bool.and_eq_true_iff.mp hops
  rw [σ.operand_of_not_branch (Instruction.isBranch_of_opcode (eq_of_beq hstore)),
    σ.operand_of_not_branch (Instruction.isBranch_of_opcode (eq_of_beq hload))]

theorem selector? (f : Facts) (b : Block) : (σ.block b).selector? (σ.facts f) = b.selector? f := by
  have hcode : (σ.block b).code.reverse = b.code.reverse.map σ.instruction := List.map_reverse.symm
  unfold Block.selector?
  rw [hcode]
  cases b.code.reverse with
  | nil => rfl
  | cons switch before =>
    rw [List.map_cons]
    dsimp only
    rw [instruction_uid, facts_knownInt?]
    cases f.knownInt? switch.uid with
    | some n => rfl
    | none =>
      cases before with
      | nil => rfl
      | cons load before =>
        cases before with
        | nil => rfl
        | cons store before =>
          exact congrArg₂ (fun (c : Bool) n? => if c = true then n? else none)
            (stored_and_loaded store load) (σ.facts_knownInt? f store.uid)

theorem choose (selector : Option Int) (targets : List Value) :
    Dispatch.choose selector (targets.map σ.value)
      = σ.choice (Dispatch.choose selector targets) := by
  unfold Dispatch.choose
  cases selector with
  | none => rfl
  | some n =>
    dsimp only
    split
    · rfl
    · rw [List.getElem?_map]
      cases targets[n.toNat]? <;> rfl

theorem ofBlock (f : Facts) (b : Block) :
    Dispatch.ofBlock (σ.block b) (σ.facts f) = σ.choice (Dispatch.ofBlock b f) := by
  unfold Dispatch.ofBlock
  rw [block_last?, selector?]
  cases b.last? with
  | none => rfl
  | some switch =>
    dsimp only [Option.map_some]
    rw [instruction_opcode, instruction_targets]
    split
    · rfl
    · cases switch.targets with
      | error e => exact choose _ []
      | ok ts => exact choose _ ts

theorem isChosen (f : Facts) (b : Block) :
    Dispatch.isChosen (σ.facts f) (σ.block b) = Dispatch.isChosen f b := by
  unfold Dispatch.isChosen
  rw [ofBlock]
  cases Dispatch.ofBlock b f <;> rfl

theorem chosenCount (f : Facts) (g : Graph) :
    Dispatch.chosenCount (σ.facts f) (σ.graph g) = Dispatch.chosenCount f g := by
  show (g.blocks.map σ.block).countP _ = _
  rw [List.countP_map]
  exact List.countP_congr fun b _ => by rw [Function.comp, isChosen]

end Dispatches

/-! ## Junk -/

section Junk

def sifted (σ : Renaming) (s : Junk.Sifted) : Junk.Sifted :=
  ⟨s.kept.map σ.instruction, s.dropped.map σ.instruction⟩

theorem sifted_take (s : Junk.Sifted) (ins : Instruction) :
    (σ.sifted s).take (σ.instruction ins) = σ.sifted (s.take ins) := by
  have hkeep : { kept := σ.instruction ins :: s.kept.map σ.instruction
                 dropped := s.dropped.map σ.instruction : Junk.Sifted }
      = σ.sifted { s with kept := ins :: s.kept } := rfl
  unfold Junk.Sifted.take
  rw [instruction_opcode]
  cases ins.opcode with
  | none => exact hkeep
  | some op =>
    cases op with
    | nop =>
      have hdropped : s.dropped.map σ.instruction ++ [σ.instruction ins]
          = (s.dropped ++ [ins]).map σ.instruction := by
        rw [List.map_append]
        rfl
      exact congrArg (Junk.Sifted.mk (s.kept.map σ.instruction)) hdropped
    | pop =>
      obtain ⟨kept, dropped⟩ := s
      cases kept with
      | nil => rfl
      | cons before rest =>
        have hdropped : dropped.map σ.instruction ++ [σ.instruction before, σ.instruction ins]
            = (dropped ++ [before, ins]).map σ.instruction := by
          rw [List.map_append]
          rfl
        show (if before.opcode == some .dup then _ else _) = σ.sifted (if _ then _ else _)
        split
        · exact congrArg (Junk.Sifted.mk (rest.map σ.instruction)) hdropped
        · rfl
    | _ => exact hkeep

theorem inCode (code : List Instruction) :
    Junk.inCode (code.map σ.instruction) = (Junk.inCode code).map σ.instruction := by
  have hrun (code : List Instruction) (s : Junk.Sifted) :
      (code.map σ.instruction).foldl Junk.Sifted.take (σ.sifted s)
        = σ.sifted (code.foldl Junk.Sifted.take s) := by
    induction code generalizing s with
    | nil => rfl
    | cons ins rest ih =>
      rw [List.map_cons, List.foldl_cons, List.foldl_cons, sifted_take, ih]
  exact congrArg Junk.Sifted.dropped (hrun code {})

end Junk

/-! ## Folding -/

section Folding

/-- Two events on the way through a block, the one before renaming and the other after it. -/
inductive Mirrors (σ : Renaming) : FoldEvent → FoldEvent → Prop where
  | queue {e e' : Edit} (h : σ.Alters e e') : Mirrors σ (.queue e) (.queue e')
  | consult : Mirrors σ .consult .consult
  | note (text text' : String) : Mirrors σ (.note text) (.note text')
  | fault (m : Misuse) : Mirrors σ (.fault m) (.fault m)

def entry (σ : Renaming) (e : FoldEntry) : FoldEntry := ⟨σ.instruction e.ins, e.constant⟩

def folder (σ : Renaming) (folder : Folder) : Folder :=
  { folder with facts := σ.facts folder.facts }

/-- Two states on the way through a block. -/
structure Keeps (σ : Renaming) (f f' : Folding) : Prop where
  view : f'.view = f.view.map σ.entry
  events : List.Forall₂ σ.Mirrors f.events f'.events
  count : f'.count = f.count

variable {f f' : Folding} {events events' : List FoldEvent}

theorem Keeps.report (h : σ.Keeps f f') (hevents : List.Forall₂ σ.Mirrors events events') :
    σ.Keeps (f.report events) (f'.report events') :=
  ⟨h.view, List.rel_append h.events hevents, h.count⟩

theorem Keeps.see (h : σ.Keeps f f') (ins : Instruction) (constant : Option Value) :
    σ.Keeps (f.see ins constant) (f'.see (σ.instruction ins) constant) :=
  ⟨congrArg (List.cons (σ.entry ⟨ins, constant⟩)) h.view, h.events, h.count⟩

/-- The constants in view are the same. -/
theorem Keeps.operands (h : σ.Keeps f f') (n : Nat) :
    (f'.view.take n).reverse = (f.view.take n).reverse.map σ.entry := by
  rw [h.view, ← List.map_take, List.map_reverse]

theorem constants (entries : List FoldEntry) :
    (entries.map σ.entry).mapM (·.constant) = entries.mapM (·.constant) := by
  rw [List.mapM_map]
  rfl

theorem Keeps.arithmeticResult (h : σ.Keeps f f') (F : Folder) (ins : Instruction) (op : ArithOp) :
    ((σ.folder F).arithmeticResult f' (σ.instruction ins) op).1 = (F.arithmeticResult f ins op).1
      ∧ List.Forall₂ σ.Mirrors (F.arithmeticResult f ins op).2
        ((σ.folder F).arithmeticResult f' (σ.instruction ins) op).2 := by
  have hlength : f'.view.length = f.view.length := by rw [h.view, List.length_map]
  have hknown : (σ.folder F).facts.knownInt? (σ.instruction ins).uid = F.facts.knownInt? ins.uid :=
    σ.facts_knownInt? F.facts ins.uid
  unfold Folder.arithmeticResult
  dsimp only
  rw [h.operands, constants, hlength, hknown, show (σ.folder F).machine = F.machine from rfl]
  cases (f.view.take op.arity).reverse.mapM (·.constant) with
  | none => exact ⟨rfl, .nil⟩
  | some vs =>
    dsimp only
    split
    · exact ⟨rfl, .nil⟩
    cases op.evaluateAt vs F.machine.width F.machine.policy with
    | error e =>
      cases e with
      | misuse m => exact ⟨rfl, .cons (.fault m) .nil⟩
      | overflow o => exact ⟨rfl, .cons (.note _ _) .nil⟩
    | ok result =>
      cases result with
      | none => exact ⟨rfl, .nil⟩
      | some n =>
        cases F.facts.knownInt? ins.uid with
        | none => exact ⟨rfl, .cons .consult (.cons (.note _ _) .nil)⟩
        | some proven =>
          dsimp only
          split
          · exact ⟨rfl, .cons .consult .nil⟩
          · exact ⟨rfl, .cons .consult (.cons (.note _ _) .nil)⟩

theorem mirrors_queue {edits edits' : List Edit} (h : List.Forall₂ σ.Alters edits edits') :
    List.Forall₂ σ.Mirrors (edits.map .queue) (edits'.map .queue) :=
  List.rel_map (fun _ _ he => .queue he) h

theorem Keeps.foldArithmetic (h : σ.Keeps f f') (F : Folder) (b : Block) (ins : Instruction)
    (op : ArithOp) :
    σ.Keeps (F.foldArithmetic b f ins op)
      ((σ.folder F).foldArithmetic (σ.block b) f' (σ.instruction ins) op) := by
  obtain ⟨hresult, hevents⟩ := h.arithmeticResult F ins op
  unfold Folder.foldArithmetic
  dsimp only
  rw [hresult]
  cases (F.arithmeticResult f ins op).1 with
  | none => exact (h.report hevents).see ins none
  | some n =>
    have hleft : σ.Keeps { f with view := f.view.drop op.arity, count := f.count + 1 }
        { f' with view := f'.view.drop op.arity, count := f'.count + 1 } := by
      refine ⟨?_, h.events, congrArg (· + 1) h.count⟩
      show f'.view.drop op.arity = (f.view.drop op.arity).map σ.entry
      rw [h.view, List.map_drop]
    have hremovals : List.Forall₂ σ.Alters
        ((f.view.take op.arity).reverse.map fun entry =>
          .ofInstruction .remove b entry.ins ("operand of " ++ ins.describe))
        ((f'.view.take op.arity).reverse.map fun entry =>
          .ofInstruction .remove (σ.block b) entry.ins
            ("operand of " ++ (σ.instruction ins).describe)) := by
      rw [h.operands, List.map_map, List.forall₂_map_left_iff, List.forall₂_map_right_iff]
      exact List.forall₂_same.mpr fun entry _ =>
        .ofInstruction .remove trivial b entry.ins _ _
    have hconstant : σ.Alters
        (.ofInstruction (.toConstant (.int n)) b ins (ins.describe ++ " = " ++ toString n))
        (.ofInstruction (.toConstant (.int n)) (σ.block b) (σ.instruction ins)
          ((σ.instruction ins).describe ++ " = " ++ toString n)) :=
      .ofInstruction (.toConstant (.int n)) trivial b ins _ _
    have hedits := mirrors_queue (List.rel_append hremovals (.cons hconstant .nil))
    exact (hleft.report (List.rel_append hevents hedits)).see ins (some (.int n))

theorem Keeps.foldSize (h : σ.Keeps f f') (b : Block) (ins : Instruction) (type : String)
    (size : Value) :
    σ.Keeps (Folder.foldSize b f ins type size)
      (Folder.foldSize (σ.block b) f' (σ.instruction ins) type size) := by
  have hedit : σ.Alters
      (.ofInstruction (.toConstant size) b ins ("sizeof " ++ type ++ " = " ++ size.display))
      (.ofInstruction (.toConstant size) (σ.block b) (σ.instruction ins)
        ("sizeof " ++ type ++ " = " ++ size.display)) :=
    .ofInstruction (.toConstant size) trivial b ins _ _
  have hseen := (h.report (.cons (.queue hedit) .nil)).see ins (some size)
  exact ⟨hseen.view, hseen.events, congrArg (· + 1) h.count⟩

/-- One more instruction is taken alike. -/
theorem Keeps.step (h : σ.Keeps f f') (F : Folder) (b : Block) (ins : Instruction) :
    σ.Keeps (F.step b f ins) ((σ.folder F).step (σ.block b) f' (σ.instruction ins)) := by
  have hoperand {op : Opcode} (hop : ins.opcode = some op) (hplain : op.isBranch = false) :
      (σ.instruction ins).operand = ins.operand :=
    σ.operand_of_not_branch ((Instruction.isBranch_of_opcode hop).trans hplain)
  unfold Folder.step
  rw [instruction_opcode]
  cases hop : ins.opcode with
  | none => exact h.see ins none
  | some op =>
    cases op with
    | pushConst =>
      rw [hoperand hop rfl]
      cases ins.operand with
      | operation op => exact h.see ins none
      | value v =>
        cases v with
        | int n => exact h.see ins (some (.int n))
        | _ => exact h.see ins none
    | sizeOf =>
      have hsize : (σ.folder F).sizeOf? (σ.instruction ins) = F.sizeOf? ins := by
        unfold Folder.sizeOf?
        rw [hoperand hop rfl]
        rfl
      dsimp only
      rw [hsize, show (σ.folder F).sizeQueries = F.sizeQueries from rfl]
      cases if F.sizeQueries = true then F.sizeOf? ins else none with
      | some e => exact h.foldSize b ins e.1 e.2
      | none => exact (h.report (.cons (.note _ _) .nil)).see ins none
    | arith =>
      rw [hoperand hop rfl, show (σ.folder F).arithmetic = F.arithmetic from rfl]
      cases ins.operand with
      | operation op =>
        dsimp only
        split
        · exact h.foldArithmetic F b ins op
        · exact h.see ins none
      | value v =>
        dsimp only
        split
        · exact (h.report (.cons (.fault .noSuchPart) .nil)).see ins none
        · exact h.see ins none
    | _ => exact h.see ins none

end Folding

end Untangle.Renaming
