/-
  Untangle.Graph.Build

  Cutting a method into blocks. A block starts at the first instruction, at every
  target of a branch, after every instruction that control does not simply run through,
  and at every start of a range of a region and directly after every end of one.
-/
import Untangle.Fault
import Untangle.Graph.Edges

namespace Untangle

/-- The two ranges of a region as places in a stream; the ends belong to them. -/
structure RegionRange where
  tryStart : Int
  tryEnd : Int
  handlerStart : Int
  handlerEnd : Int
  deriving Repr, DecidableEq

namespace RegionRange

/-- The two ranges. -/
def parts (r : RegionRange) : List (Int × Int) :=
  [(r.tryStart, r.tryEnd), (r.handlerStart, r.handlerEnd)]

/-- The sizes of the ranges that hold a place, with the number of the region. -/
def holding (place : Int) (r : RegionRange) (index : Nat) : List (Int × Nat) :=
  (r.parts.filter fun (start, finish) => start ≤ place && place ≤ finish).map
    fun (start, finish) => (finish - start, index)

/-- The first of the smallest sizes. -/
def smallest? : List (Int × Nat) → Option (Int × Nat)
  | [] => none
  | first :: rest => some (rest.foldl (fun best c => if c.1 < best.1 then c else best) first)

/-- The number of the region with the smallest range around a place. -/
def innermost? (place : Int) (ranges : List RegionRange) : Option Nat :=
  (smallest? (ranges.zipIdx.flatMap fun (r, i) => r.holding place i)).map (·.2)

end RegionRange

namespace Graph

/-- The fault of a branch to nowhere. -/
def danglingBranch (ins : Instruction) : Fault :=
  .inconsistent
    [IssueKind.danglingBranch.issue (ins.describe ++ " targets missing instruction") (.int ins.uid)]

/-- The place that a boundary of a region names. -/
def boundaryPlace (code : List Instruction) (index : Nat) (name : String) (v : Value) :
    Except Fault Int := do
  let v ← v.asKey
  match Method.placeOf? code v with
  | some p => return p
  | none =>
    let detail := "region #" ++ toString index ++ " " ++ name ++ " refers to missing instruction"
    throw (.inconsistent [IssueKind.danglingRegion.issue detail v])

/-- The ranges of a region. -/
def regionRange (code : List Instruction) (index : Nat) (r : Region) :
    Except Fault RegionRange := do
  let range : RegionRange := {
    tryStart := ← boundaryPlace code index "try_start" r.tryStart
    tryEnd := ← boundaryPlace code index "try_end" r.tryEnd
    handlerStart := ← boundaryPlace code index "handler_start" r.handlerStart
    handlerEnd := ← boundaryPlace code index "handler_end" r.handlerEnd }
  if range.tryStart > range.tryEnd || range.handlerStart > range.handlerEnd then
    throw (.inconsistent
      [IssueKind.emptyRegion.issue ("region #" ++ toString index ++ " has an inverted range")])
  return range

/-- Refuses an instruction that branches to nowhere, or whose mnemonic cannot be looked
    up among the terminators. -/
def checkFlow (code : List Instruction) (ins : Instruction) : Except Fault Unit := do
  let targets ← Fault.lift ins.targets
  targets.forM fun t => do
    let t ← t.asKey
    if (Method.placeOf? code t).isNone then throw (danglingBranch ins)
  if ins.opcode == some .other then
    let _ ← Fault.lift ins.mnemonic.asKey

/-- Whether a block starts at a place, given the places that branches lead to. -/
def isStart (code : List Instruction) (ranges : List RegionRange) (terminators : List Value)
    (targets : List Nat) (p : Nat) : Bool :=
  p == 0
  || targets.contains p
  || (code[p - 1]?).any (fun ins => ins.endsRun terminators)
  || ranges.any fun r => r.parts.any fun (start, finish) => start == p || finish + 1 == p

/-- The places where blocks start, in stream order. -/
def blockStarts (code : List Instruction) (ranges : List RegionRange)
    (terminators : List Value) : List Nat :=
  let targets := code.flatMap fun ins => ins.targetUids.filterMap (Method.place? code)
  (List.range code.length).filter (isStart code ranges terminators targets)

/-- The instructions from each start up to the next. -/
def runsFrom (code : List Instruction) : List Nat → List (Nat × List Instruction)
  | [] => []
  | start :: rest =>
    let finish := rest.head?.getD code.length
    (start, (code.drop start).take (finish - start)) :: runsFrom code rest

/-- The block of a run, which starts at a place. -/
def blockOf (run : Nat × List Instruction) : Option Block :=
  run.2.head?.map fun first => { label := first.uid, code := run.2, isEntry := run.1 == 0 }

/-- The labels of the blocks that start inside a range. -/
def labelsWithin (code : List Instruction) (starts : List Nat) (range : Int × Int) : List Int :=
  (starts.filter fun (p : Nat) => range.1 ≤ (p : Int) && (p : Int) ≤ range.2).filterMap fun p =>
    (code[p]?).map (·.uid)

/-- The record of an instruction at a place, if it is an exit from a region. -/
def exitRecord (code : List Instruction) (ranges : List RegionRange) (ins : Instruction)
    (place : Nat) : Except Fault (Option ExitRecord) :=
  if ins.opcode != some .leave then .ok none
  else
    match RegionRange.innermost? place ranges with
    | none => .ok none
    | some index =>
      match ins.operand.toValue.asInt?.bind (Method.place? code), ranges[index]? with
      | some target, some r => .ok (some ⟨ins.uid, index, (target : Int) ≤ r.handlerEnd + 1⟩)
      | _, _ => .error (danglingBranch ins)

/-- The mnemonics after which control does not go on, where no others are given. -/
def usualTerminators : List Value :=
  ["ret", "throw", "rethrow", "endfinally", "endfilter", "jmp"].map .str

/-- Cuts a method into blocks. Fails when a branch or a region does not name an
    instruction of the method. -/
def build (m : Method) (terminators : List Value) : Except Fault Graph := do
  terminators.forM fun t => do let _ ← Fault.lift t.asKey
  let ranges ← m.regions.zipIdx.mapM fun (r, i) => regionRange m.code i r
  m.code.forM (checkFlow m.code)
  let starts := blockStarts m.code ranges terminators
  let spans := (m.regions.zip ranges).map fun (region, range) =>
    { region
      tryBlocks := labelsWithin m.code starts (range.tryStart, range.tryEnd)
      handlerBlocks := labelsWithin m.code starts (range.handlerStart, range.handlerEnd) : Span }
  let exits ← m.code.zipIdx.filterMapM fun (ins, p) => exitRecord m.code ranges ins p
  let graph : Graph := {
    blocks := (runsFrom m.code starts).filterMap blockOf
    spans, exits, terminators
    locals := m.locals
    name := m.name
    fresh := Method.freshUid m.code }
  return graph.connected

end Graph

end Untangle
