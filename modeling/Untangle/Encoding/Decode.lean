/-
  Untangle.Encoding.Decode

  Reading methods from documents. Uids may be left out, and are then given out in
  stream order above those that are there.
-/
import Untangle.Fault
import Untangle.Method
import Untangle.Number.Read
import Untangle.Text.Lower

namespace Untangle.Encoding

/-- The optional part of a record under a key. Only dictionaries have parts. -/
def part? (data : Value) (key : String) : Except Misuse (Option Value) :=
  match data with
  | .dict entries => .ok (entries.lookup key)
  | _ => .error .noSuchPart

/-- The uid that a value stands for: texts are read, fractions lose their fractional
    part. -/
def uidNumber (v : Value) : Except Misuse Int :=
  match v with
  | .str s =>
    match Number.wholeNumber? s with
    | some n => .ok n
    | none => .error .badNumeral
  | v => v.towardZero

/-- The opcode of a name, in any case of letters; null is no opcode. -/
def opcode (v : Value) : Except Fault (Option Opcode) :=
  match v with
  | .null => .ok none
  | v =>
    match Opcode.ofKey? (Text.lower v.display) with
    | some op => .ok (some op)
    | none => .error (.malformed none (.unknownOpcode v))

/-- The operand of an instruction: an operation of its own kind, a tuple of targets for
    a dispatch, and any value otherwise. -/
def operand (op : Option Opcode) (v : Value) : Except Fault Operand :=
  match op with
  | some .arith => do
    match ← Fault.lift v.asKey with
    | .str s =>
      match ArithOp.ofName? s with
      | some op => return .operation op
      | none => throw (.malformed none (.unknownOperation v))
    | _ => throw (.malformed none (.unknownOperation v))
  | some .switch => do
    if v.truthy then return .value (.tuple (← Fault.lift v.items)) else return .value (.tuple [])
  | _ => .ok (.value v)

/-- Reads an instruction. -/
def readInstruction (data : Value) : Except Fault Instruction := do
  let get (key : String) : Except Fault Value := do
    return (← Fault.lift (part? data key)).getD .null
  let op ← opcode (← get "op")
  let operand ← operand op (← get "operand")
  let uid ← Fault.lift (uidNumber ((← Fault.lift (part? data "uid")).getD (.int (-1))))
  let effect ← match ← get "stack_effect" with
    | .null => pure none
    | v => (Fault.lift v.items).map some
  return { opcode := op, operand, uid, mnemonic := ← get "mnemonic", effect }

/-- Reads a region. -/
def readRegion (data : Value) : Except Fault Region := do
  let .dict entries := data | throw (.misuse .wrongFields)
  let get (key : String) : Value := (entries.lookup key).getD .null
  let kind :=
    match entries.lookup "kind" with
    | some (.str s) => RegionKind.ofName? s
    | _ => none
  match kind with
  | none => throw (.malformed none (.badRegionKind data))
  | some kind =>
    return {
      kind
      tryStart := get "try_start"
      tryEnd := get "try_end"
      handlerStart := get "handler_start"
      handlerEnd := get "handler_end"
      catchType := get "catch_type" }

/-- Whether a value mentions the part of a method that has its instructions: as a key,
    as an item, or inside a text. -/
def mentionsInstructions (data : Value) : Except Misuse Bool :=
  match data with
  | .str s => .ok ((s.splitOn "instructions").length != 1)
  | v => do return (← v.items).contains (.str "instructions")

/-- Whether two values of a list are equal. -/
def hasRepeats (uids : List Int) : Bool :=
  match uids with
  | [] => false
  | uid :: rest => rest.contains uid || hasRepeats rest

/-- Reads a method. -/
def readMethod (data : Value) : Except Fault Method := do
  if !(← Fault.lift (mentionsInstructions data)) then throw (.malformed none .noInstructions)
  let .dict entries := data | throw (.misuse .notIterable)
  let get (key : String) (default : Value) : Value := (entries.lookup key).getD default
  let name := get "name" (.str "<method>")
  let code ← (← Fault.lift (get "instructions" .null).items).mapM readInstruction
  if hasRepeats ((code.map (·.uid)).filter (0 ≤ ·)) then
    throw (.malformed none (.duplicateUids name))
  let regions ← (← Fault.lift (get "regions" (.list [])).items).mapM readRegion
  let locals ← Fault.lift (get "locals" (.list [])).items
  return Method.numbered { code, regions, locals, name }

/-- Reads the methods of a document: an object with a list of them, or the list. -/
def readDocument (document : Value) : Except Fault (List Method) := do
  let list :=
    match document with
    | .dict entries => (entries.lookup "methods").getD (.list [])
    | v => v
  (← Fault.lift list.items).mapM readMethod

end Untangle.Encoding
