/-
  Untangle.Abstract.Step

  Running instructions on an abstract stack. Each instruction may have a fact: the value
  that it produces or, for stores and dispatches, consumes.
-/
import Untangle.Abstract.Stack
import Untangle.Fault
import Untangle.Instruction
import Untangle.Value.Table

namespace Untangle

/-- What the meaning of arithmetic and of size queries depends on. -/
structure Machine where
  width : GivenWidth := .whole .four
  policy : OverflowPolicy := .wrap
  /-- The sizes of types by name, or what goes wrong when one is asked for. -/
  sizes : Except Misuse Table := .ok []

namespace Machine

/-- The size of a type, if it is known. -/
def size? (m : Machine) (type : String) : Option Value :=
  match m.sizes.toOption.bind fun table => table.get? type with
  | some .null | none => none
  | some v => some v

end Machine

namespace Instruction

/-- Names of the conditions that compare two values. -/
def comparisons : List String :=
  ["beq", "bne.un", "bge", "bge.un", "bgt", "bgt.un", "ble", "ble.un", "blt", "blt.un"]

/-- How many values a conditional branch pops. -/
def conditionArity (ins : Instruction) : Nat :=
  match ins.mnemonic with
  | .str s => if comparisons.any fun name => s == name || s == name ++ ".s" then 2 else 1
  | _ => 1

/-- The counts of values popped and pushed that an instruction declares. -/
def declaredEffect (ins : Instruction) : Option (Int × Int) :=
  match ins.effect with
  | some [pops, pushes] =>
    match pops.asInt?, pushes.asInt? with
    | some a, some b => some (a, b)
    | _, _ => none
  | _ => none

end Instruction

namespace AbstractStack

open AbstractValue

/-- The result of an operation over abstract operands, the deepest first. -/
def evaluate (m : Machine) (op : ArithOp) (operands : List AbstractValue) :
    Except ArithFault AbstractValue :=
  match operands.mapM constant? with
  | none => .ok .unknown
  | some vs => do
    match ← op.evaluateAt vs m.width m.policy with
    | some n => return .known (.int n)
    | none => return .unknown

/-- Runs an instruction: the stack after it, and its fact if it has one. -/
def step (m : Machine) (ins : Instruction) (s : AbstractStack) :
    AbstractStack × Option AbstractValue :=
  match ins.opcode with
  | some .pushConst =>
    let v := .known ins.operand.toValue
    (s.push v, some v)
  | some .loadLocal => (s.push .unknown, some .unknown)
  | some .storeLocal | some .switch =>
    let (v, s) := s.pop
    (s, some v)
  | some .arith =>
    match ins.operand with
    | .operation op =>
      let (operands, s) := s.popMany op.arity
      let v := ((evaluate m op operands).toOption).getD .unknown
      (s.push v, some v)
    | .value _ => (unknown, none)
  | some .dup =>
    let (v, s) := s.pop
    ((s.push v).push v, some v)
  | some .pop => (s.pop.2, none)
  | some .nop | some .branch => (s, none)
  | some .condBranch => ((s.popMany ins.conditionArity).2, none)
  | some .leave => (empty, none)
  | some .sizeOf =>
    let v :=
      match ins.operand.text?.bind m.size? with
      | some size => .known size
      | none => .unknown
    (s.push v, some v)
  | some .other | none =>
    match ins.declaredEffect with
    | some (pops, pushes) =>
      let s := (s.popMany pops.toNat).2
      (s.pushUnknown pushes.toNat, if pushes == 0 then none else some .unknown)
    | none => (unknown, none)

/-- The stack after the instructions of a block. -/
def transfer (m : Machine) (code : List Instruction) (s : AbstractStack) : AbstractStack :=
  code.foldl (fun s ins => (step m ins s).1) s

end AbstractStack

/-- What is to be told about running an instruction. -/
inductive Report where
  /-- An operation has no result because of an overflow. -/
  | overflow (ins : Instruction) (o : Overflow)
  /-- The instruction cannot be run, and nothing after it. -/
  | fault (m : Misuse)

namespace Report

/-- What is to be told about the effect that an instruction declares: it has to be two
    counts. -/
def ofEffect? (ins : Instruction) : Option Report :=
  match ins.effect with
  | none => none
  | some [_, _] => if ins.declaredEffect.isSome then none else some (.fault .notANumber)
  | some _ => some (.fault .wrongCount)

/-- What is to be told about running an instruction from a stack. -/
def of? (m : Machine) (ins : Instruction) (s : AbstractStack) : Option Report :=
  match ins.opcode, ins.operand with
  | some .arith, .operation op =>
    match AbstractStack.evaluate m op (s.popMany op.arity).1 with
    | .error (.overflow o) => some (.overflow ins o)
    | .error (.misuse f) => some (.fault f)
    | .ok _ => none
  | some .arith, .value _ => some (.fault .noSuchPart)
  | some .condBranch, _ =>
    if ins.mnemonic.truthy && !ins.mnemonic.isText then some (.fault .noSuchPart) else none
  | some .sizeOf, .value (.str _) =>
    match m.sizes with
    | .ok _ => none
    | .error f => some (.fault f)
  | some .other, _ | none, _ => ofEffect? ins
  | _, _ => none

/-- What is to be told about running instructions from a stack, up to the first that
    cannot be run. -/
def ofCode (m : Machine) : List Instruction → AbstractStack → List Report
  | [], _ => []
  | ins :: rest, s =>
    let more := ofCode m rest (AbstractStack.step m ins s).1
    match of? m ins s with
    | some (.fault f) => [.fault f]
    | some r => r :: more
    | none => more

/-- The messages of reports, and the first fault among them. What comes after a fault has
    not happened. -/
def told : List Report → List String × Option Misuse
  | [] => ([], none)
  | .fault f :: _ => ([], some f)
  | .overflow ins o :: rest =>
    let (notes, stop) := told rest
    ((ins.describe ++ " not folded: " ++ o.message) :: notes, stop)

/-- What running instructions from a stack stops at, if one of them cannot be run. -/
def stop? (m : Machine) (code : List Instruction) (s : AbstractStack) : Option Misuse :=
  (told (ofCode m code s)).2

end Report

end Untangle
