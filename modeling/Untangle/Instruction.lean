/-
  Untangle.Instruction

  Instructions of the stack machine. An instruction is known by its uid, and branches
  name the uids of their targets, so moving or deleting other instructions changes no
  branch.
-/
import Untangle.Arith.Op
import Untangle.Value.Table

namespace Untangle

/-- What an instruction does. -/
inductive Opcode where
  | pushConst | loadLocal | storeLocal | arith | dup | pop | nop
  | branch | condBranch | switch | leave | sizeOf | other
  deriving Repr, DecidableEq

namespace Opcode

/-- All opcodes. -/
def all : List Opcode :=
  [.pushConst, .loadLocal, .storeLocal, .arith, .dup, .pop, .nop, .branch, .condBranch, .switch,
   .leave, .sizeOf, .other]

/-- The name of an opcode in documents. -/
def key : Opcode → String
  | .pushConst => "push_const"
  | .loadLocal => "load_local"
  | .storeLocal => "store_local"
  | .arith => "arith"
  | .dup => "dup"
  | .pop => "pop"
  | .nop => "nop"
  | .branch => "branch"
  | .condBranch => "cond_branch"
  | .switch => "switch"
  | .leave => "leave"
  | .sizeOf => "sizeof"
  | .other => "opaque"

/-- The opcode of a name, in lower case. -/
def ofKey? (s : String) : Option Opcode :=
  all.find? fun op => op.key == s

/-- The name of an opcode in messages. -/
def title : Opcode → String
  | .pushConst => "push-constant"
  | .loadLocal => "load-local"
  | .storeLocal => "store-local"
  | .arith => "arithmetic"
  | .dup => "duplicate-top"
  | .pop => "discard-top"
  | .nop => "no-op"
  | .branch => "unconditional-branch"
  | .condBranch => "conditional-branch"
  | .switch => "multi-way-dispatch"
  | .leave => "exit-protected-region"
  | .sizeOf => "size-of-type-query"
  | .other => "other"

/-- Whether the operand of the opcode names targets. -/
def isBranch : Opcode → Bool
  | .branch | .condBranch | .switch | .leave => true
  | _ => false

/-- Whether control never goes on to the next instruction. -/
def isUnconditional : Opcode → Bool
  | .branch | .leave => true
  | _ => false

end Opcode

/-- The operand of an instruction: a value (null for none), or the operation of an
    arithmetic instruction. -/
inductive Operand where
  | value (v : Value)
  | operation (op : ArithOp)
  deriving Inhabited

namespace Operand

/-- No operand. -/
def none : Operand := .value .null

/-- Whether there is no operand. -/
def isNone : Operand → Bool
  | .value .null => true
  | _ => false

/-- The operand as a value, an operation by its name. -/
def toValue : Operand → Value
  | .value v => v
  | .operation op => .str op.name

/-- The text that an operand is, if it is one. -/
def text? : Operand → Option String
  | .value (.str s) => some s
  | _ => Option.none

/-- The integer that an operand is, if it is one. -/
def integer? : Operand → Option Int
  | .value v => v.integer?
  | .operation _ => Option.none

end Operand

/-- An instruction. The mnemonic is kept where it says more than the opcode; the effect
    is the declared count of values popped and pushed. -/
structure Instruction where
  opcode : Option Opcode
  operand : Operand := .none
  uid : Int := -1
  mnemonic : Value := .null
  effect : Option (List Value) := none
  deriving Inhabited

namespace Instruction

/-- Whether the operand of the instruction names targets. -/
def isBranch (ins : Instruction) : Bool :=
  ins.opcode.any Opcode.isBranch

/-- The targets of a branch; none for other instructions. A dispatch has a list of
    them. -/
def targets (ins : Instruction) : Except Misuse (List Value) :=
  if !ins.isBranch then .ok []
  else if ins.opcode == some .switch then
    let v := ins.operand.toValue
    if v.truthy then v.items else .ok []
  else if ins.operand.isNone then .ok []
  else .ok [ins.operand.toValue]

/-- The instruction numbers among the targets of a branch. -/
def targetUids (ins : Instruction) : List Int :=
  match ins.targets with
  | .ok ts => ts.filterMap Value.wholeNumber?
  | .error _ => []

/-- Refuses an instruction with a target that cannot be looked up. -/
def checkTargets (ins : Instruction) : Except Misuse Unit := do
  let _ ← (← ins.targets).mapM Value.asKey

/-- Sends each target through a renaming. -/
def retarget (rename : Value → Value) (ins : Instruction) : Instruction :=
  if !ins.isBranch then ins
  else if ins.opcode == some .switch then
    match ins.targets with
    | .ok ts => { ins with operand := .value (.tuple (ts.map rename)) }
    | .error _ => ins
  else if ins.operand.isNone then ins
  else { ins with operand := .value (rename ins.operand.toValue) }

/-- Sends each target through a table; a target without an entry stays. -/
def retargetBy (table : Table) (ins : Instruction) : Except Misuse Instruction := do
  ins.checkTargets
  return ins.retarget fun v => (table.lookup v).getD v

/-- Whether control can go on to the next instruction. Instructions of no opcode stop,
    and so do others whose mnemonic is among the terminators. -/
def fallsThrough (ins : Instruction) (terminators : List Value) : Bool :=
  match ins.opcode with
  | none => false
  | some .other => !terminators.contains ins.mnemonic
  | some op => !op.isUnconditional

/-- Whether control can go on to the next instruction, for terminators that are given from
    outside. They have to be values that can be looked up, and so has the mnemonic. -/
def fallsThroughAmong (terminators : Value) (ins : Instruction) : Except Misuse Bool := do
  let terminators ← (← terminators.items).mapM Value.asKey
  if ins.opcode == some .other then
    let _ ← ins.mnemonic.asKey
  return ins.fallsThrough terminators

/-- Whether control leaves the straight line after the instruction. -/
def endsRun (ins : Instruction) (terminators : List Value) : Bool :=
  ins.isBranch || !ins.fallsThrough terminators

/-- Turns the instruction into another one, in place. -/
def become (ins : Instruction) (opcode : Opcode) (operand : Operand) : Instruction :=
  { opcode := some opcode, operand := operand, uid := ins.uid }

/-- A copy whose operand cannot change: a list becomes a tuple. -/
def copy (ins : Instruction) : Instruction :=
  match ins.operand with
  | .value (.list items) => { ins with operand := .value (.tuple items) }
  | _ => ins

/-- The name of an instruction in messages. -/
def title (ins : Instruction) : String :=
  if ins.mnemonic.truthy then ins.mnemonic.display
  else
    match ins.opcode with
    | some op => op.title
    | none => "<null>"

/-- An instruction in messages: uid, name and operand. -/
def describe (ins : Instruction) : String :=
  let head := "<" ++ toString ins.uid ++ ": " ++ ins.title
  if ins.operand.isNone then head ++ ">"
  else head ++ " " ++ ins.operand.toValue.quoted ++ ">"

end Instruction

end Untangle
