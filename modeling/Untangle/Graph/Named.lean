/-
  Untangle.Graph.Named

  Blocks and instructions of a graph as values from outside name them. A value that
  cannot be looked up names nothing and is refused; one that stands for no whole number
  names nothing that there is.
-/
import Untangle.Graph.Edges
import Untangle.Graph.Relink

namespace Untangle

/-- The place in a list of a length that a value counts to. A negative number counts from
    the end. -/
def Value.placeWithin (v : Value) (length : Nat) : Except Misuse Nat :=
  match v.asInt? with
  | none => .error .notANumber
  | some n =>
    let place := if n < 0 then n + length else n
    if place < 0 || (length : Int) ≤ place then .error .noSuchPlace else .ok place.toNat

namespace Graph

/-- The block that a value names by its label. -/
def named (g : Graph) (label : Value) : Except Misuse Block := do
  match (← label.asKey).wholeNumber?.bind g.block? with
  | some b => return b
  | none => throw .noSuchKey

/-- The graph with just the blocks that a list of values names, in the order of the list.
    Nothing else is brought up to date. -/
def reordered (g : Graph) (labels : Value) : Except Misuse Graph := do
  let blocks ← (← labels.items).mapM g.named
  return { g with blocks := (distinct (blocks.map (·.label))).filterMap g.block? }

/-- The graph with the named block emptied. -/
def emptied (g : Graph) (label : Value) : Except Misuse Graph := do
  return g.setBlock (← g.named label).label fun b => { b with code := [] }

/-- The graph without the instruction at a place of the named block. -/
def dropped (g : Graph) (label place : Value) : Except Misuse Graph := do
  let b ← g.named label
  let i ← place.placeWithin b.code.length
  return g.setBlock b.label fun b => { b with code := b.code.eraseIdx i }

/-- The graph with another operand of the instruction that a value names by its uid. The
    operand cannot change: a list becomes a tuple. -/
def withOperand (g : Graph) (uid operand : Value) : Except Misuse Graph :=
  let fixed := match operand with
    | .list items => .tuple items
    | v => v
  let isMeant (ins : Instruction) : Bool := uid.wholeNumber? == some ins.uid
  let set (ins : Instruction) : Instruction :=
    if isMeant ins then { ins with operand := .value fixed } else ins
  if g.code.any isMeant then
    .ok { g with blocks := g.blocks.map fun b => { b with code := b.code.map set } }
  else .error .notFound

/-- The first instruction that runs when control enters the named block; null names
    none. -/
def resolvedFrom (g : Graph) (label : Value) : Except Misuse (Option Int) := do
  return (← label.asKey).wholeNumber?.bind g.resolveTarget?

/-- The instruction that control reaches when branching to what a value names; null names
    nothing. An instruction that is reached as it is named keeps the form of its name. -/
def reachedFrom (g : Graph) (uid : Value) : Except Misuse Value := do
  match (← uid.asKey).wholeNumber? with
  | none => return .null
  | some n =>
    match g.liveTarget? n with
    | none => return .null
    | some live => return if g.hasBlock n then .int live else uid

/-- The first and last instruction of the named blocks that are left. -/
def boundsOf (g : Graph) (labels : Value) : Except Misuse (Option (Int × Int)) := do
  let keys ← (← labels.items).mapM Value.asKey
  return g.spanBounds? (keys.filterMap Value.wholeNumber?)

/-- The label after the one that a value names. -/
def followerOf? (g : Graph) (label : Value) : Option Int :=
  label.wholeNumber?.bind g.nextLabel?

/-- The labels that the named block can pass control to. -/
def successorsOf (g : Graph) (label : Value) : Except Misuse (List Int) := do
  let b ← g.named label
  b.last?.forM Instruction.checkTargets
  return g.successors b

end Graph

end Untangle
