/-
  Untangle.Edit

  Edits of a block graph that are queued first and made later. An edit names an
  instruction by its uid, so that edits made before it do not disturb it. Of two edits
  of one kind to one instruction the first counts.
-/
import Untangle.Graph.Edges

namespace Untangle

/-- What an edit does to an instruction. -/
inductive Change where
  /-- The instruction becomes a branch. -/
  | toBranch (target : Value)
  /-- The instruction becomes a push of a constant. -/
  | toConstant (v : Value)
  /-- A new instruction comes in front of it. -/
  | insertBefore (opcode : Opcode)
  /-- The instruction goes away. -/
  | remove

/-- The kinds of edits, in the order in which they are made. -/
inductive ChangeKind where
  | toBranch | toConstant | insertBefore | remove
  deriving Repr, DecidableEq

namespace ChangeKind

/-- All kinds, in the order in which they are made. -/
def all : List ChangeKind := [.toBranch, .toConstant, .insertBefore, .remove]

/-- The name of a kind in messages. -/
def name : ChangeKind → String
  | .toBranch => "INSN_CONVERT_TO_BRANCH"
  | .toConstant => "INSN_REPLACE_WITH_CONST"
  | .insertBefore => "INSN_INSERT_BEFORE"
  | .remove => "INSN_REMOVE"

/-- The rank of a kind: lower ranks are made first. -/
def priority : ChangeKind → Nat
  | .toBranch => 10
  | .toConstant => 20
  | .insertBefore => 30
  | .remove => 100

end ChangeKind

namespace Change

/-- The kind of a change. -/
def kind : Change → ChangeKind
  | .toBranch _ => .toBranch
  | .toConstant _ => .toConstant
  | .insertBefore _ => .insertBefore
  | .remove => .remove

/-- Whether two changes of one kind come to the same. -/
def agrees : Change → Change → Bool
  | .toBranch a, .toBranch b => a == b
  | .toConstant a, .toConstant b => a == b
  | .insertBefore a, .insertBefore b => a == b
  | .remove, .remove => true
  | _, _ => false

/-- What a change puts in place, in messages. -/
def payloadText : Change → String
  | .toBranch v | .toConstant v => v.quoted
  | .insertBefore op =>
    "<Opcode." ++ op.key.toUpper ++ ": " ++ Text.quoted op.title ++ ">"
  | .remove => ""

end Change

/-- An edit of the instruction with a uid in the block with a label. Both are as they were
    given; an edit with values that name nothing does not apply. -/
structure Edit where
  change : Change
  block : Value
  uid : Value
  note : String := ""

namespace Edit

/-- The edit of an instruction in a block. -/
def ofInstruction (change : Change) (b : Block) (ins : Instruction) (note : String) : Edit :=
  { change, block := .int b.label, uid := .int ins.uid, note }

/-- The kind of an edit. -/
def kind (e : Edit) : ChangeKind := e.change.kind

/-- Whether two edits are of one kind and to one instruction. -/
def sameKey (a b : Edit) : Bool := a.kind == b.kind && a.uid == b.uid

/-- What an edit is for, in messages. -/
def shown (e : Edit) : String :=
  if e.note.isEmpty then e.uid.display else e.note

/-- The first edits of each kind to each instruction. -/
def coalesced (edits : List Edit) : List Edit :=
  edits.foldl (fun kept e => if kept.any e.sameKey then kept else kept ++ [e]) []

/-- The edits that are dropped although they would do something else than the first of
    their kind, each after that one. -/
def conflicts (edits : List Edit) : List (Edit × Edit) :=
  let kept := coalesced edits
  edits.filterMap fun e =>
    (kept.find? e.sameKey).bind fun first =>
      if first.change.agrees e.change then none else some (first, e)

/-- The edits in the order in which they are made. -/
def inOrder (edits : List Edit) : List Edit :=
  ChangeKind.all.flatMap fun k => edits.filter fun e => e.kind == k

/-- The instructions that take the place of one, given the uid of a new instruction. -/
def replacement (e : Edit) (fresh : Int) (ins : Instruction) : List Instruction :=
  match e.change with
  | .toBranch target => [ins.become .branch (.value target)]
  | .toConstant v => [ins.become .pushConst (.value v)]
  | .insertBefore opcode => [{ opcode := some opcode, uid := fresh }, ins]
  | .remove => []

/-- The instructions with those at the first place of a uid replaced. -/
def replaceFirst (uid : Int) (f : Instruction → List Instruction) :
    List Instruction → List Instruction
  | [] => []
  | ins :: rest => if ins.uid == uid then f ins ++ rest else ins :: replaceFirst uid f rest

/-- The label and the uid that an edit names, if the block holds the instruction. -/
def place? (e : Edit) (g : Graph) : Option (Int × Int) := do
  let label ← e.block.wholeNumber?
  let uid ← e.uid.wholeNumber?
  let b ← g.block? label
  if b.code.any fun ins => ins.uid == uid then return (label, uid) else none

/-- Whether the block that an edit names holds the instruction. -/
def applies (e : Edit) (g : Graph) : Bool :=
  (e.place? g).isSome

/-- Makes an edit, if it applies. -/
def apply (e : Edit) (g : Graph) : Graph :=
  match e.place? g with
  | some (label, uid) =>
    let changed := g.setBlock label fun b =>
      { b with code := replaceFirst uid (e.replacement g.fresh) b.code }
    match e.change with
    | .insertBefore _ => { changed with fresh := g.fresh + 1 }
    | _ => changed
  | none => g

/-- The graph after a list of edits, and the edits that did not apply. -/
def applyAll (g : Graph) : List Edit → Graph × List Edit
  | [] => (g, [])
  | e :: rest =>
    let (last, failed) := applyAll (e.apply g) rest
    (last, if e.applies g then failed else e :: failed)

end Edit

/-- Edits that wait to be made. They are made once. -/
structure EditQueue where
  edits : List Edit := []
  applied : Bool := false

/-- What making the edits of a queue comes to. -/
structure EditOutcome where
  graph : Graph
  kept : List Edit
  failed : List Edit

namespace EditOutcome

/-- How many edits were made. -/
def count (o : EditOutcome) : Nat := o.kept.length - o.failed.length

end EditOutcome

/-- Makes queued edits. Edges are computed afresh when any was made. -/
def Graph.edited (g : Graph) (edits : List Edit) : EditOutcome :=
  let kept := Edit.coalesced edits
  let (changed, failed) := Edit.applyAll g (Edit.inOrder kept)
  { graph := if failed.length < kept.length then changed.connected else changed, kept, failed }

end Untangle
