/-
  Untangle.Listing.Printer

  Writing a method as a listing. An instruction that something names has a label made
  of its uid; labels stand in a column of eight characters.
-/
import Untangle.Fault
import Untangle.Listing.Literal
import Untangle.Method

namespace Untangle.Listing

/-- The label of an instruction. -/
def labelText (v : Value) : String :=
  "L" ++ v.display

/-- A declared effect, between braces. The counts are read before they are counted. -/
def effectText (effect : List Value) : Except Misuse String := do
  match effect.length, ← (effect.take 2).mapM Value.towardZero with
  | 2, [pops, pushes] => return " \x7b" ++ toString pops ++ "," ++ toString pushes ++ "\x7d"
  | _, _ => throw .notANumber

/-- The words behind the mnemonic of an instruction that the machine does not know. -/
def otherWords (ins : Instruction) : Except Misuse String := do
  let operand := if ins.operand.isNone then "" else " " ++ ins.operand.toValue.display
  match ins.effect with
  | some e => return operand ++ (← effectText e)
  | none => return operand

/-- An instruction that the machine does not know, by its mnemonic. A mnemonic that is no
    text stands for itself and has nothing behind it; only a list takes the characters of
    what comes behind as further items. -/
def otherForm (ins : Instruction) : Except Misuse Value := do
  match if ins.mnemonic.truthy then ins.mnemonic else .str "opaque" with
  | .str s => return .str (s ++ (← otherWords ins))
  | .list items =>
    return .list (items ++ (← otherWords ins).toList.map fun c => .str (String.ofList [c]))
  | v =>
    if !ins.operand.isNone then throw .notAText
    match ins.effect with
    | none => return v
    | some e =>
      let _ ← effectText e
      throw .notAText

/-- An instruction that the machine knows, as a listing shows it. -/
def knownText (ins : Instruction) : Except Misuse String := do
  let operand := ins.operand.toValue.display
  let target := labelText ins.operand.toValue
  match ins.opcode with
  | none => return "<null>"
  | some .pushConst => return "ldc " ++ literalText ins.operand.toValue
  | some .loadLocal => return "ldloc " ++ operand
  | some .storeLocal => return "stloc " ++ operand
  | some .arith => return operand
  | some .dup => return "dup"
  | some .pop => return "pop"
  | some .nop => return "nop"
  | some .sizeOf => return "sizeof " ++ operand
  | some .switch =>
    return "switch (" ++ Value.commaList ((← ins.targets).map labelText) ++ ")"
  | some .branch => return "br " ++ target
  | some .leave => return "leave " ++ target
  | some .condBranch =>
    let name := if ins.mnemonic.truthy then ins.mnemonic.display else "brtrue"
    return name ++ " " ++ target
  | some .other => return ins.mnemonic.display

/-- An instruction by itself: its text, or what stands for it where the machine does not
    know it and its mnemonic is no text. -/
def instructionForm (ins : Instruction) : Except Misuse Value :=
  if ins.opcode == some .other then otherForm ins else (knownText ins).map .str

/-- An instruction as a listing shows it. -/
def instructionText (ins : Instruction) : Except Misuse String := do
  return (← instructionForm ins).display

/-- The values that branches and regions name. -/
def references (m : Method) : Except Misuse (List Value) := do
  let targets ← m.code.mapM Instruction.targets
  let boundaries := m.regions.flatMap fun r => r.boundaries.filter fun v => v != .null
  (targets.flatten ++ boundaries).mapM Value.asKey

/-- A line of an instruction, with its label if it has one. -/
def instructionLine (labelled : Bool) (ins : Instruction) : Except Misuse String := do
  let label := if labelled then labelText (.int ins.uid) ++ ":" else ""
  let gap := String.ofList (List.replicate (8 - label.length) ' ')
  return label ++ gap ++ (← instructionText ins)

/-- A text among those that are joined. -/
def joinable (v : Value) : Except Misuse String :=
  match v with
  | .str s => .ok s
  | _ => .error .notAText

/-- The line of a region. -/
def regionLine (r : Region) : Except Misuse String := do
  let ends := [labelText r.tryStart, labelText r.tryEnd, r.kind.name, labelText r.handlerStart,
    labelText r.handlerEnd]
  let type ← if r.catchType.truthy then (joinable r.catchType).map ([·]) else pure []
  return ".try " ++ String.intercalate " " (ends ++ type)

/-- Writes a method. -/
def methodText (m : Method) : Except Misuse String := do
  let named ← references m
  let head := ".method " ++ m.name.display
  let locals ←
    if m.locals.isEmpty then pure []
    else do
      let names ← m.locals.mapM joinable
      pure [".locals " ++ String.intercalate " " names]
  let code ← m.code.mapM fun ins =>
    instructionLine (named.any fun v => v.wholeNumber? == some ins.uid) ins
  let regions ← m.regions.mapM regionLine
  return String.intercalate "\n" (head :: locals ++ code ++ regions) ++ "\n"

end Untangle.Listing
