/-
  Untangle.Validate

  The structural checks of a method: every branch names an instruction of the method,
  and so does every boundary of a region, with no range that ends before it starts.
-/
import Untangle.Fault
import Untangle.Method

namespace Untangle

/-- The defects of one instruction of a stream. -/
def Instruction.issues (code : List Instruction) (ins : Instruction) : List Issue :=
  let issue (kind : IssueKind) (detail : String) : Issue := kind.issue detail (.int ins.uid)
  if ins.opcode.isNone then [issue .nullOpcode "instruction has no opcode"]
  else if !ins.isBranch then []
  else if ins.operand.isNone then [issue .danglingBranch (ins.describe ++ " has no target")]
  else
    match ins.targets with
    | .ok ts =>
      (ts.filter fun t => (Method.placeOf? code t).isNone).map fun t =>
        issue .danglingBranch (ins.describe ++ " targets missing uid " ++ t.display)
    | .error _ => []

/-- A defect of the region with a number. -/
def Region.issue (kind : IssueKind) (index : Nat) (detail : String) : Issue :=
  kind.issue ("region #" ++ toString index ++ " " ++ detail)

/-- The defects of a region of a stream. -/
def Region.issues (code : List Instruction) (index : Nat) (r : Region) : List Issue :=
  let missing := r.namedBoundaries.filter fun (_, v) => (Method.placeOf? code v).isNone
  let inverted (start finish : Value) : Bool :=
    match Method.placeOf? code start, Method.placeOf? code finish with
    | some a, some b => b < a
    | _, _ => false
  if !missing.isEmpty then
    [issue .danglingRegion index (Value.commaList (missing.map (·.1)) ++ " do(es) not resolve")]
  else
    (if inverted r.tryStart r.tryEnd then [issue .emptyRegion index "try range is inverted"]
     else [])
    ++ (if inverted r.handlerStart r.handlerEnd then
          [issue .emptyRegion index "handler range is inverted"]
        else [])

namespace Method

/-- The structural defects of a method: of the whole, of its instructions in stream
    order, of its regions in order. -/
def issues (m : Method) : List Issue :=
  (if m.code.isEmpty then [IssueKind.emptyBody.issue "no instructions left"] else [])
  ++ m.code.flatMap (Instruction.issues m.code)
  ++ m.regions.zipIdx.flatMap fun (r, index) => r.issues m.code index

/-- Refuses a method with a target or boundary that cannot be looked up. -/
def checkNames (m : Method) : Except Misuse Unit := do
  m.code.forM Instruction.checkTargets
  m.regions.forM fun r => r.boundaries.forM fun v => do let _ ← v.asKey

/-- The structural defects of a method, if its names can be looked up. -/
def validate (m : Method) : Except Misuse (List Issue) := do
  m.checkNames
  return m.issues

end Method

end Untangle
