/-
  Untangle.Listing.Parser

  Reading methods from a listing. Lines are read one by one into the method under
  construction; its labels and regions are resolved when it ends.
-/
import Untangle.Listing.Line
import Untangle.Listing.Literal
import Untangle.Method
import Untangle.Text.Lines
import Untangle.Text.Lower

namespace Untangle.Listing

open Untangle.Text

/-! ## Instructions -/

/-- The parts between the separators, empty ones included. -/
def splitAt (isSeparator : Char → Bool) : List Char → List (List Char)
  | [] => [[]]
  | c :: rest =>
    if isSeparator c then [] :: splitAt isSeparator rest
    else
      match splitAt isSeparator rest with
      | [] => [[c]]
      | part :: more => (c :: part) :: more

/-- The number that a word of decimal digits spells, with blanks around it. -/
def count? (cs : List Char) : Option Nat :=
  let digits := trimChars cs
  if digits.isEmpty then none else (digits.mapM digitValue?).map numberOf

/-- Takes the declared effect, two counts between braces, off the end of an instruction
    (which has no blanks at its end). -/
def splitEffect (cs : List Char) : List Char × Option (List Value) :=
  match cs.reverse with
  | '\x7d' :: back =>
    let inner := (back.takeWhile (· != '\x7b')).reverse
    match back.dropWhile (· != '\x7b'), splitAt (· == ',') inner with
    | _ :: front, [a, b] =>
      match count? a, count? b with
      | some pops, some pushes =>
        (trimEndChars front.reverse, some [.int pops, .int pushes])
      | _, _ => (cs, none)
    | _, _ => (cs, none)
  | _ => (cs, none)

/-- Mnemonics that are followed by a literal. -/
def literalMnemonics : List String :=
  ["ldc", "ldc.i4", "ldc.i8", "ldc.r4", "ldc.r8", "ldc.i4.s", "ldstr"]

/-- Mnemonics of conditional branches, in their long forms. -/
def conditionNames : List String :=
  ["brtrue", "brfalse", "brnull", "brzero", "brinst", "beq", "bne.un", "bge", "bge.un", "bgt",
   "bgt.un", "ble", "ble.un", "blt", "blt.un"]

/-- The opcode of a mnemonic that takes exactly one target. -/
def branchOpcode? (mnemonic : String) : Option Opcode :=
  if mnemonic == "br" || mnemonic == "br.s" then some .branch
  else if mnemonic == "leave" || mnemonic == "leave.s" then some .leave
  else if conditionNames.any fun name => mnemonic == name || mnemonic == name ++ ".s" then
    some .condBranch
  else none

/-- The opcode of a mnemonic that is followed by a local. -/
def localOpcode? (mnemonic : String) : Option Opcode :=
  if mnemonic == "ldloc" || mnemonic == "ldloc.s" then some .loadLocal
  else if mnemonic == "stloc" || mnemonic == "stloc.s" then some .storeLocal
  else none

/-- The number that a word of digits spells. Digits without a place value spell none. -/
def localNumber (digits : List Char) : Except Misuse Int :=
  match digits.mapM digitValue? with
  | some ds => .ok (numberOf ds)
  | none => .error .badNumeral

/-- A local is known by number or by name. -/
def localOperand (text : String) : Except Misuse Value := do
  if !text.isEmpty && text.toList.all isDigit then return .int (← localNumber text.toList)
  else return .str text

/-- The opcode and number of a short form such as `ldloc.0`. -/
def shortLocal? (mnemonic : String) : Option (Opcode × Int) :=
  let numbered (opcode : Opcode) (rest : List Char) : Option (Opcode × Int) :=
    match rest with
    | [d] => (digitValue? d).map fun n => (opcode, (n : Int))
    | _ => none
  match afterWord? "ldloc." mnemonic.toList, afterWord? "stloc." mnemonic.toList with
  | some rest, _ => numbered .loadLocal rest
  | none, some rest => numbered .storeLocal rest
  | none, none => none

/-- The constant of a short form such as `ldc.i4.3`, given what follows the second
    point. -/
def shortConstant (mnemonic : String) (ending : List Char) (line : Nat) : Except Fault Int :=
  if ending == ['m', '1'] then .ok (-1)
  else if !ending.isEmpty && ending.all isDigit then Fault.lift (localNumber ending)
  else .error (.malformed (some line) (.badConstant mnemonic))

/-- The labels that an instruction names. -/
def targetNames (text : String) : List String :=
  (pieces (fun c => isBlank c || c == ',' || c == '(' || c == ')') text.toList).map String.ofList

/-- Reads an instruction. The labels that it names are still to be resolved. -/
def readInstruction (text : String) (line : Nat) : Except Fault (Instruction × List String) := do
  let fault (cause : MalformedCause) : Except Fault (Instruction × List String) :=
    .error (.malformed (some line) cause)
  let plain (opcode : Opcode) (operand : Value) : Except Fault (Instruction × List String) :=
    .ok ({ opcode := some opcode, operand := .value operand }, [])
  let (body, effect) := splitEffect text.toList
  let mnemonic := lower (String.ofList (body.takeWhile (· != ' ')))
  let rest := trim (String.ofList (body.dropWhile (· != ' ')))
  match mnemonic with
  | "nop" => plain .nop .null
  | "dup" => plain .dup .null
  | "pop" => plain .pop .null
  | "sizeof" => if rest.isEmpty then fault .missingType else plain .sizeOf (.str rest)
  | "switch" => .ok ({ opcode := some .switch, operand := .value (.tuple []) }, targetNames rest)
  | _ =>
    if literalMnemonics.contains mnemonic then
      if rest.isEmpty then fault (.missingLiteral mnemonic)
      else plain .pushConst (← parseLiteral rest)
    else if let some ending := afterWord? "ldc.i4." mnemonic.toList then
      plain .pushConst (.int (← shortConstant mnemonic ending line))
    else if let some opcode := localOpcode? mnemonic then
      if rest.isEmpty then fault (.missingLocal mnemonic)
      else plain opcode (← Fault.lift (localOperand rest))
    else if let some (opcode, n) := shortLocal? mnemonic then plain opcode (.int n)
    else if let some op := ArithOp.ofName? mnemonic then
      .ok ({ opcode := some .arith, operand := .operation op }, [])
    else if let some opcode := branchOpcode? mnemonic then
      match targetNames rest with
      | [target] =>
        let shown : Value := if opcode == .condBranch then .str mnemonic else .null
        .ok ({ opcode := some opcode, mnemonic := shown }, [target])
      | _ => fault (.targetCount mnemonic)
    else
      let operand : Value := if rest.isEmpty then .null else .str rest
      .ok ({ opcode := some .other, operand := .value operand, mnemonic := .str mnemonic,
             effect := effect }, [])

/-! ## Methods -/

/-- A line of a method that names labels: the names and the number of the line. -/
structure Reference where
  names : List String
  line : Nat

/-- A method under construction. The lists that grow are in reverse. -/
structure Draft where
  name : String
  locals : List String := []
  code : List (Instruction × Reference) := []
  labels : List (String × Int) := []
  regions : List Reference := []
  /-- Labels whose instruction has not come yet. -/
  pending : List (String × Nat) := []

namespace Draft

/-- Puts a label in front of the next instruction. -/
def addLabel (d : Draft) (label : String) (line : Nat) : Except Fault Draft :=
  if (d.labels.lookup label).isSome || (d.pending.lookup label).isSome then
    .error (.malformed (some line) (.duplicateLabel label))
  else .ok { d with pending := d.pending ++ [(label, line)] }

/-- Adds an instruction, which the pending labels then name. -/
def addInstruction (d : Draft) (ins : Instruction) (names : List String) (line : Nat) : Draft :=
  let uid : Int := d.code.length
  { d with
    code := ({ ins with uid := uid }, ⟨names, line⟩) :: d.code
    labels := d.pending.map (fun (label, _) => (label, uid)) ++ d.labels
    pending := [] }

/-- The uid that a label stands for. -/
def resolve (d : Draft) (line : Nat) (label : String) : Except Fault Value :=
  match d.labels.lookup label with
  | some uid => .ok (.int uid)
  | none => .error (.malformed (some line) (.undefinedLabel label))

/-- The instruction with the labels it names resolved. -/
def link (d : Draft) (entry : Instruction × Reference) : Except Fault Instruction := do
  let (ins, ref) := entry
  let uids ← ref.names.mapM (d.resolve ref.line)
  match uids with
  | [] => return ins
  | first :: _ =>
    let operand : Value := if ins.opcode == some .switch then .tuple uids else first
    return { ins with operand := .value operand }

/-- The region that a `.try` directive describes. -/
def region (d : Draft) (ref : Reference) : Except Fault Region := do
  let build (tryFrom tryTo word handlerFrom handlerTo : String) (catchType : Value) :
      Except Fault Region := do
    match RegionKind.ofName? (lower word) with
    | none => throw (.malformed (some ref.line) (.regionKindWord word))
    | some kind =>
      return {
        kind := kind
        tryStart := ← d.resolve ref.line tryFrom
        tryEnd := ← d.resolve ref.line tryTo
        handlerStart := ← d.resolve ref.line handlerFrom
        handlerEnd := ← d.resolve ref.line handlerTo
        catchType := catchType }
  match ref.names with
  | [a, b, kind, c, e] => build a b kind c e .null
  | [a, b, kind, c, e, type] => build a b kind c e (.str type)
  | _ => throw (.malformed (some ref.line) .regionFields)

/-- The finished method. -/
def finish (d : Draft) : Except Fault Method := do
  if let (label, line) :: _ := d.pending then throw (.malformed (some line) (.strayLabel label))
  let code ← d.code.reverse.mapM d.link
  let regions ← d.regions.reverse.mapM d.region
  return { code, regions, locals := d.locals.map .str, name := .str d.name }

end Draft

/-- What has been read of a listing: the methods that have ended, and the one under
    construction. -/
structure Progress where
  ended : List Method := []
  current : Option Draft := none

namespace Progress

/-- Ends the method under construction. -/
def close (p : Progress) : Except Fault Progress :=
  match p.current with
  | none => .ok p
  | some d => do return { ended := p.ended ++ [← d.finish] }

/-- Reads one more line. Lines before the first `.method` belong to a method without a
    name of its own. -/
def step (p : Progress) (line : Line) (number : Nat) : Except Fault Progress := do
  let draft := p.current.getD { name := "<method>" }
  match line with
  | .blank => return p
  | .method name =>
    let p ← p.close
    let name := if name.isEmpty then "method_" ++ toString p.ended.length else name
    return { p with current := some { name } }
  | .locals names => return { p with current := some { draft with locals := draft.locals ++ names } }
  | .guarded fields =>
    return { p with current := some { draft with regions := ⟨fields, number⟩ :: draft.regions } }
  | .code labels text =>
    let draft ← labels.foldlM (fun d label => d.addLabel label number) draft
    if text.isEmpty then return { p with current := some draft }
    let (ins, names) ← readInstruction text number
    return { p with current := some (draft.addInstruction ins names number) }

end Progress

/-- Reads the methods of a listing. -/
def parseMethods (text : String) : Except Fault (List Method) := do
  let numbered := (lines text).zipIdx 1
  let p ← numbered.foldlM (fun p (line, n) => Progress.step p (Line.read line) n) {}
  return (← p.close).ended

/-- Reads a listing of exactly one method. -/
def parseMethod (text : String) : Except Fault Method := do
  match ← parseMethods text with
  | [m] => return m
  | ms => throw (.malformed none (.methodCount ms.length))

end Untangle.Listing
