/-
  Untangle.Method

  A method body: instructions in stream order, the regions protected by handlers, and
  the names of the locals. All instructions of a method have a uid, and no two the
  same.
-/
import Untangle.Instruction

namespace Untangle

/-- What the handler of a region handles. -/
inductive RegionKind where
  | catch | filter | finally | fault
  deriving Repr, DecidableEq

/-- The name of a kind of region. -/
def RegionKind.name : RegionKind → String
  | .catch => "catch"
  | .filter => "filter"
  | .finally => "finally"
  | .fault => "fault"

/-- The kind of a name. -/
def RegionKind.ofName? (s : String) : Option RegionKind :=
  [.catch, .filter, .finally, .fault].find? fun k => k.name == s

/-- A protected range and the range of its handler. The boundaries name instructions,
    and the ends belong to the ranges. -/
structure Region where
  kind : RegionKind
  tryStart : Value
  tryEnd : Value
  handlerStart : Value
  handlerEnd : Value
  catchType : Value := .null

namespace Region

/-- The four boundaries, with their names. -/
def namedBoundaries (r : Region) : List (String × Value) :=
  [("try_start", r.tryStart), ("try_end", r.tryEnd), ("handler_start", r.handlerStart),
   ("handler_end", r.handlerEnd)]

/-- The four boundaries. -/
def boundaries (r : Region) : List Value :=
  [r.tryStart, r.tryEnd, r.handlerStart, r.handlerEnd]

end Region

/-- A method body. -/
structure Method where
  code : List Instruction
  regions : List Region := []
  locals : List Value := []
  name : Value := .str "<method>"

namespace Method

/-- One more than the greatest uid, and zero for a method without uids. -/
def freshUid (code : List Instruction) : Int :=
  code.foldl (fun n ins => max n (ins.uid + 1)) 0

/-- Numbers the instructions that have no uid yet, from a number on. -/
def numberFrom (next : Int) : List Instruction → List Instruction
  | [] => []
  | ins :: rest =>
    if ins.uid < 0 then { ins with uid := next } :: numberFrom (next + 1) rest
    else ins :: numberFrom next rest

/-- The method with a fresh uid for each instruction that has none. -/
def numbered (m : Method) : Method :=
  { m with code := numberFrom (freshUid m.code) m.code }

/-- A copy of the method that shares nothing with it. -/
def copy (m : Method) : Method :=
  { m with code := m.code.map Instruction.copy }

/-- The place in the stream of the instruction with a uid. -/
def place? (code : List Instruction) (uid : Int) : Option Nat :=
  code.findIdx? fun ins => ins.uid == uid

/-- The place in the stream of the instruction that a value names. -/
def placeOf? (code : List Instruction) (v : Value) : Option Nat :=
  v.wholeNumber?.bind (place? code)

/-- Whether the method has a multi-way dispatch. -/
def hasDispatch (m : Method) : Bool :=
  m.code.any fun ins => ins.opcode == some .switch

end Method

end Untangle
