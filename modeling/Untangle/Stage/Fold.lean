/-
  Untangle.Stage.Fold

  Size queries and arithmetic over constants become constants. Inside a block the
  folder keeps a view of the instructions as they will stand after the edits that it
  has queued: an operation folds when constants stand directly in front of it there,
  and the analysis proves the same result.
-/
import Untangle.Stage.Work

namespace Untangle

/-- An instruction as it will stand, with its constant if it is one. -/
structure FoldEntry where
  ins : Instruction
  constant : Option Value

/-- What the folder does, in order. -/
inductive FoldEvent where
  | queue (e : Edit)
  /-- The facts are looked at. -/
  | consult
  | note (text : String)
  | fault (m : Misuse)

/-- The state of folding a block: the view, the last entry first, what was done, and how
    many computations have been folded. -/
structure Folding where
  view : List FoldEntry := []
  events : List FoldEvent := []
  count : Nat := 0

/-- What a folder works with. -/
structure Folder where
  machine : Machine
  facts : Facts
  sizeQueries : Bool
  arithmetic : Bool

namespace Folding

/-- The state with more events. -/
def report (f : Folding) (events : List FoldEvent) : Folding :=
  { f with events := f.events ++ events }

/-- The state with one more instruction in view. -/
def see (f : Folding) (ins : Instruction) (constant : Option Value) : Folding :=
  { f with view := ⟨ins, constant⟩ :: f.view }

end Folding

namespace Folder

/-- The size of the type that a size query names, if it is in the table. -/
def sizeOf? (folder : Folder) (ins : Instruction) : Option (String × Value) :=
  ins.operand.text?.bind fun type =>
    (folder.machine.sizes.toOption.bind fun table => table.get? type).map fun size =>
      (type, size)

/-- Folds a size query. -/
def foldSize (b : Block) (f : Folding) (ins : Instruction) (type : String) (size : Value) :
    Folding :=
  let note := "sizeof " ++ type ++ " = " ++ size.display
  let edit := Edit.ofInstruction (.toConstant size) b ins note
  { (f.report [.queue edit]).see ins (some size) with count := f.count + 1 }

/-- The result of an operation over the constants in view, and the events of finding
    it. -/
def arithmeticResult (folder : Folder) (f : Folding) (ins : Instruction) (op : ArithOp) :
    Option Int × List FoldEvent :=
  let operands := (f.view.take op.arity).reverse
  match operands.mapM (·.constant) with
  | none => (none, [])
  | some vs =>
    if f.view.length < op.arity then (none, [])
    else
      match op.evaluateAt vs folder.machine.width folder.machine.policy with
      | .error (.misuse m) => (none, [.fault m])
      | .error (.overflow o) => (none, [.note (ins.describe ++ " not folded: " ++ o.message)])
      | .ok none => (none, [])
      | .ok (some n) =>
        match folder.facts.knownInt? ins.uid with
        | some proven =>
          if proven == n then (some n, [.consult])
          else
            (none, [.consult, .note (ins.describe ++ " not folded: analysis proved "
              ++ toString proven ++ ", operands give " ++ toString n)])
        | none =>
          (none, [.consult, .note (ins.describe ++ " not folded: analysis proved "
            ++ Value.null.quoted ++ ", operands give " ++ toString n)])

/-- Folds an operation, or leaves it. -/
def foldArithmetic (folder : Folder) (b : Block) (f : Folding) (ins : Instruction)
    (op : ArithOp) : Folding :=
  let (result, events) := folder.arithmeticResult f ins op
  match result with
  | none => (f.report events).see ins none
  | some n =>
    let operands := (f.view.take op.arity).reverse
    let removals := operands.map fun entry =>
      Edit.ofInstruction .remove b entry.ins ("operand of " ++ ins.describe)
    let constant :=
      Edit.ofInstruction (.toConstant (.int n)) b ins (ins.describe ++ " = " ++ toString n)
    let left : Folding := { f with view := f.view.drop op.arity, count := f.count + 1 }
    (left.report (events ++ (removals ++ [constant]).map .queue)).see ins (some (.int n))

/-- Takes one more instruction of a block. -/
def step (folder : Folder) (b : Block) (f : Folding) (ins : Instruction) : Folding :=
  match ins.opcode, ins.operand with
  | some .pushConst, .value (.int n) => f.see ins (some (.int n))
  | some .sizeOf, _ =>
    match if folder.sizeQueries then folder.sizeOf? ins else none with
    | some (type, size) => foldSize b f ins type size
    | none =>
      (f.report [.note ("Unknown size for " ++ ins.describe ++ ", left as-is")]).see ins none
  | some .arith, .operation op =>
    if folder.arithmetic then folder.foldArithmetic b f ins op else f.see ins none
  | some .arith, .value _ =>
    if folder.arithmetic then (f.report [.fault .noSuchPart]).see ins none else f.see ins none
  | _, _ => f.see ins none

/-- Folds the instructions of a block. -/
def foldBlock (folder : Folder) (b : Block) : Folding :=
  b.code.foldl (folder.step b) {}

end Folder

namespace Stage

/-- Carries out an event, and gives the edit that it queues. -/
def foldEvent (event : FoldEvent) : Work (List Edit) := do
  match event with
  | .queue e =>
    Work.logQueued e
    return [e]
  | .consult =>
    let _ ← Work.facts
    return []
  | .note text =>
    Work.log "CFEX.pass.fold" Level.debug text
    return []
  | .fault m => throw (.misuse m)

/-- What the stage folds with. -/
def folder (s : Stage) (w : Workbench) : Folder where
  machine := w.analysis.machine
  facts := w.facts.getD (w.analysis.facts w.graph)
  sizeQueries := s.isOn "fold_sizeof"
  arithmetic := s.isOn "fold_arithmetic"

/-- Folds constants in all blocks, and gives the number of computations folded. -/
def foldConstants (s : Stage) : Work Nat := do
  let w ← get
  let foldings := w.graph.blocks.map (s.folder w).foldBlock
  let folded := Number.totalSize (foldings.map (·.count))
  let edits ← (foldings.flatMap (·.events)).mapM foldEvent
  if 0 < folded then
    let _ ← Work.applyEdits edits.flatten
    Work.log "CFEX.pass.fold" Level.info
      ("Folded " ++ toString folded ++ " constant computation(s)")
  return folded

end Stage

end Untangle
