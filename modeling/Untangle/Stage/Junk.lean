/-
  Untangle.Stage.Junk

  Instructions that can be dropped without effect: no-ops, and a duplicate with the
  discard that undoes it.
-/
import Untangle.Stage.Work

namespace Untangle

namespace Junk

/-- The instructions kept so far, the last first, and those dropped, in order. -/
structure Sifted where
  kept : List Instruction := []
  dropped : List Instruction := []

/-- Takes one more instruction. A discard cancels the duplicate directly in front of it
    in what is kept. -/
def Sifted.take (s : Sifted) (ins : Instruction) : Sifted :=
  match ins.opcode, s.kept with
  | some .nop, _ => { s with dropped := s.dropped ++ [ins] }
  | some .pop, before :: rest =>
    if before.opcode == some .dup then
      { kept := rest, dropped := s.dropped ++ [before, ins] }
    else { s with kept := ins :: s.kept }
  | _, _ => { s with kept := ins :: s.kept }

/-- Sifts the instructions of a block. -/
def sift (code : List Instruction) : Sifted :=
  code.foldl Sifted.take {}

/-- The instructions of a block that can be dropped. -/
def inCode (code : List Instruction) : List Instruction :=
  (sift code).dropped

/-- The edits that drop the junk of a block. -/
def edits (b : Block) : List Edit :=
  (inCode b.code).map fun ins => Edit.ofInstruction .remove b ins ins.describe

end Junk

namespace Stage

/-- Drops the junk of all blocks, and gives its amount. -/
def eliminateJunk : Work Nat := do
  let edits := (← get).graph.blocks.flatMap Junk.edits
  edits.forM Work.logQueued
  let removed ← Work.applyEdits edits
  if 0 < removed then
    Work.log "CFEX.pass.junk" Level.info ("Removed " ++ toString removed ++ " junk instruction(s)")
  return removed

end Stage

end Untangle
