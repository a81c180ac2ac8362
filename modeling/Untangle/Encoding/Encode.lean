/-
  Untangle.Encoding.Encode

  Methods as documents: an object per method, instruction and region. Parts that are
  absent are left out.
-/
import Untangle.Method

namespace Untangle.Encoding

/-- An entry that is left out when its value is null. -/
def unlessNull (key : String) : Value → List (String × Value)
  | .null => []
  | v => [(key, v)]

/-- The operand of an instruction: tuples become lists, operations their names. -/
def operandValue : Operand → Value
  | .operation op => .str op.name
  | .value (.tuple items) => .list items
  | .value v => v

/-- Encodes an instruction. -/
def instruction (ins : Instruction) : Value :=
  let opcode : Value :=
    match ins.opcode with
    | some op => .str op.key
    | none => .null
  let effect : Value :=
    match ins.effect with
    | some counts => .list counts
    | none => .null
  .dict ([("uid", .int ins.uid), ("op", opcode)]
    ++ unlessNull "operand" (operandValue ins.operand)
    ++ unlessNull "mnemonic" ins.mnemonic
    ++ unlessNull "stack_effect" effect)

/-- Encodes a region. -/
def region (r : Region) : Value :=
  .dict (("kind", .str r.kind.name) :: r.namedBoundaries ++ unlessNull "catch_type" r.catchType)

/-- Encodes a method. -/
def method (m : Method) : Value :=
  .dict [("name", m.name), ("locals", .list m.locals),
    ("instructions", .list (m.code.map instruction)), ("regions", .list (m.regions.map region))]

end Untangle.Encoding
