/-
  Untangle.Graph.Basic

  The block graph of a method: straight-line blocks in stream order, the blocks that
  each region covers, and what was known about exits from regions when the graph was
  built.
-/
import Untangle.Method

namespace Untangle

/-- A straight-line run of instructions that is entered at its start only. Its label is
    the uid that its first instruction had when the block was made. -/
structure Block where
  label : Int
  code : List Instruction := []
  /-- Labels of the blocks before and after this one in the flow of control. -/
  preds : List Int := []
  succs : List Int := []
  isEntry : Bool := false
  deriving Inhabited

namespace Block

/-- The last instruction of a block. -/
def last? (b : Block) : Option Instruction := b.code.getLast?

/-- A block in messages. -/
def describe (b : Block) : String :=
  let sorted (labels : List Int) : String :=
    (Value.list ((labels.mergeSort (· ≤ ·)).map .int)).quoted
  "Block(label=" ++ toString b.label ++ ", n=" ++ toString b.code.length ++ ", preds="
    ++ sorted b.preds ++ ", succs=" ++ sorted b.succs ++ ")"

end Block

/-- The blocks that the two ranges of a region cover, in stream order. -/
structure Span where
  region : Region
  tryBlocks : List Int
  handlerBlocks : List Int

/-- The span without some of its blocks. -/
def Span.without (s : Span) (gone : List Int) : Span :=
  { s with
    tryBlocks := s.tryBlocks.filter fun l => !gone.contains l
    handlerBlocks := s.handlerBlocks.filter fun l => !gone.contains l }

/-- What held of an exit from a region when the graph was built: the innermost region
    around it, and whether its target stood no later than directly after the end of that
    region's handler. -/
structure ExitRecord where
  uid : Int
  region : Nat
  bounded : Bool
  deriving Repr, DecidableEq

/-- The block graph of a method. -/
structure Graph where
  blocks : List Block
  spans : List Span := []
  exits : List ExitRecord := []
  locals : List Value := []
  name : Value := .str "<method>"
  /-- Mnemonics after which control does not go on. -/
  terminators : List Value := []
  /-- The uid of the next instruction that is made. -/
  fresh : Int := 0

namespace Graph

/-- The labels in stream order. -/
def labels (g : Graph) : List Int := g.blocks.map (·.label)

/-- The block with a label. -/
def block? (g : Graph) (label : Int) : Option Block :=
  g.blocks.find? fun b => b.label == label

/-- Whether there is a block with a label. -/
def hasBlock (g : Graph) (label : Int) : Bool :=
  g.blocks.any fun b => b.label == label

/-- Replaces the block with a label. -/
def setBlock (g : Graph) (label : Int) (f : Block → Block) : Graph :=
  { g with blocks := g.blocks.map fun b => if b.label == label then f b else b }

/-- The block where the method is entered. -/
def entry? (g : Graph) : Option Block :=
  g.blocks.find? (·.isEntry)

/-- The label after another one in a list. -/
def labelAfter? (label : Int) : List Int → Option Int
  | [] => none
  | l :: rest => if l == label then rest.head? else labelAfter? label rest

/-- The label of the block after the one with a label, in stream order. -/
def nextLabel? (g : Graph) (label : Int) : Option Int :=
  labelAfter? label g.labels

/-- The instructions in stream order. -/
def code (g : Graph) : List Instruction := g.blocks.flatMap (·.code)

/-- Blocks with their instructions changed, up to the first that does not pass. -/
def changedWhile (passes : Instruction → Bool) (f : Instruction → Instruction) :
    List Block → List Block
  | [] => []
  | b :: rest =>
    let code := (b.code.takeWhile passes).map f ++ b.code.dropWhile passes
    { b with code } :: if b.code.all passes then changedWhile passes f rest else rest

/-- The label of the block that holds the instruction with a uid. -/
def owner? (g : Graph) (uid : Int) : Option Int :=
  (g.blocks.find? fun b => b.code.any fun ins => ins.uid == uid).map (·.label)

/-- The uid of the first instruction of the first block with any. -/
def firstUid? : List Block → Option Int
  | [] => none
  | b :: rest =>
    match b.code with
    | ins :: _ => some ins.uid
    | [] => firstUid? rest

/-- The first instruction that runs when control enters the block with a label: blocks
    without instructions pass control on to the next one. -/
def resolveTarget? (g : Graph) (label : Int) : Option Int :=
  firstUid? (g.blocks.dropWhile fun b => b.label != label)

/-- The first block of each handler. -/
def handlerRoots (g : Graph) : List Int :=
  g.spans.filterMap fun s => s.handlerBlocks.head?

/-- Refuses a graph with a target that cannot be looked up. -/
def checkTargets (g : Graph) : Except Misuse Unit :=
  g.code.forM Instruction.checkTargets

end Graph

end Untangle
