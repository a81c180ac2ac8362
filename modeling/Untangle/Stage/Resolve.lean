/-
  Untangle.Stage.Resolve

  Dispatches whose selector is a proven constant become direct branches.
-/
import Untangle.Stage.Work

namespace Untangle

/-- The proven selector of the dispatch at the end of a block. Where the value consumed
    is not known itself, it may have been stored just before it was loaded. -/
def Block.selector? (b : Block) (facts : Facts) : Option Int :=
  match b.code.reverse with
  | [] => none
  | switch :: before =>
    match facts.knownInt? switch.uid, before with
    | some n, _ => some n
    | none, load :: store :: _ =>
      if store.opcode == some .storeLocal && load.opcode == some .loadLocal
          && store.operand.toValue.equal load.operand.toValue then
        facts.knownInt? store.uid
      else none
    | none, _ => none

/-- What becomes of the dispatch at the end of a block. -/
inductive Dispatch where
  /-- The selector is not proven, or there is no dispatch. -/
  | unproven
  /-- The selector chooses none of the targets. -/
  | outOfRange (selector : Int)
  /-- The selector chooses a target. -/
  | chosen (selector : Nat) (target : Value)

namespace Dispatch

/-- Opcodes that do nothing but push a value. -/
def pureProducers : List Opcode := [.pushConst, .loadLocal, .sizeOf]

/-- What becomes of a dispatch, given its proven selector and its targets. -/
def choose (selector : Option Int) (targets : List Value) : Dispatch :=
  match selector with
  | none => .unproven
  | some n =>
    if n < 0 then .outOfRange n
    else
      match targets[n.toNat]? with
      | some t => .chosen n.toNat t
      | none => .outOfRange n

/-- What becomes of the dispatch at the end of a block. -/
def ofBlock (b : Block) (facts : Facts) : Dispatch :=
  match b.last? with
  | none => .unproven
  | some switch =>
    if switch.opcode != some .switch then .unproven
    else choose (b.selector? facts) (switch.targets.toOption.getD [])

/-- The edit that takes the selector off the stack: its producer goes, or a discard
    comes in. -/
def selectorEdit (b : Block) (switch : Instruction) : Edit :=
  let discard := Edit.ofInstruction (.insertBefore .pop) b switch "discard selector"
  match b.code.dropLast.getLast? with
  | some producer =>
    if producer.opcode.any pureProducers.contains then
      Edit.ofInstruction .remove b producer ("selector producer " ++ producer.describe)
    else discard
  | none => discard

/-- The edits that turn a dispatch into a branch to the chosen target. -/
def edits (b : Block) (switch : Instruction) (selector : Nat) (target : Value) : List Edit :=
  let note := switch.describe ++ " -> case " ++ toString selector ++ " (" ++ target.display ++ ")"
  [selectorEdit b switch, Edit.ofInstruction (.toBranch target) b switch note]

end Dispatch

namespace Stage

/-- Resolves the dispatches with a proven selector, and gives their number. -/
def resolveSwitches : Work Nat := do
  let facts ← Work.facts
  let g := (← get).graph
  let mut queued : List Edit := []
  let mut resolved := 0
  for b in g.blocks do
    let some switch := b.last? | continue
    if switch.opcode != some .switch then continue
    Work.check (switch.targets.map fun _ => ())
    match Dispatch.ofBlock b facts with
    | .unproven => pure ()
    | .outOfRange n =>
      Work.log "CFEX.pass.switch" Level.info
        ("Selector " ++ toString n ++ " out of range for "
          ++ toString (switch.targets.toOption.getD []).length ++ " target(s) at "
          ++ switch.describe ++ ", left as-is")
    | .chosen n target =>
      let edits := Dispatch.edits b switch n target
      edits.forM Work.logQueued
      queued := queued ++ edits
      resolved := resolved + 1
  if 0 < resolved then
    let _ ← Work.applyEdits queued
    Work.log "CFEX.pass.switch" Level.info
      ("Resolved " ++ toString resolved ++ " dispatch site(s)")
  return resolved

end Stage

end Untangle
