/-
  Untangle.Proofs.Execution.Walk

  The stack machine with nothing known of the world. What an instruction does to the stack
  is a relation (`Instruction.May`): a local, the result of a call and an operation that has
  no result may give anything, and there is no way to run an instruction that takes more
  values than there are. In any world an instruction does one of these things (`act_may`). A
  walk comes in at the entry or at the start of a handler, runs the blocks instruction by
  instruction, and goes from the end of a block along any of its edges.
-/
import Mathlib.Logic.Relation
import Untangle.Abstract.Facts
import Untangle.Proofs.Execution.Moment

namespace Untangle

namespace Instruction

/-- What running an instruction may do to a stack, the topmost value first; and the value
    that it produces, or consumes if it is a store or a dispatch. A constant that is a list is
    pushed as a tuple. -/
inductive May (m : Machine) (ins : Instruction) :
    List Value → List Value → Option Value → Prop where
  | constant (stack : List Value) (hop : ins.opcode = some .pushConst) :
      May m ins stack (ins.operand.toValue.fixed :: stack) (some ins.operand.toValue.fixed)
  | load (v : Value) (stack : List Value) (hop : ins.opcode = some .loadLocal) :
      May m ins stack (v :: stack) (some v)
  | take (v : Value) (stack : List Value)
      (hop : ins.opcode = some .storeLocal ∨ ins.opcode = some .switch) :
      May m ins (v :: stack) stack (some v)
  /-- The operands stand the deepest first. -/
  | arith {op : ArithOp} (operands : List Value) (v : Value) (stack : List Value)
      (hop : ins.opcode = some .arith) (hoperand : ins.operand = .operation op)
      (harity : operands.length = op.arity)
      (hv : ∀ n, op.evaluateAt operands m.width m.policy = .ok (some n) → v = .int n) :
      May m ins (operands.reverse ++ stack) (v :: stack) (some v)
  | dup (v : Value) (stack : List Value) (hop : ins.opcode = some .dup) :
      May m ins (v :: stack) (v :: v :: stack) (some v)
  | pop (v : Value) (stack : List Value) (hop : ins.opcode = some .pop) :
      May m ins (v :: stack) stack none
  | stay (stack : List Value) (hop : ins.opcode = some .nop ∨ ins.opcode = some .branch) :
      May m ins stack stack none
  | test (conditions stack : List Value) (hop : ins.opcode = some .condBranch)
      (harity : conditions.length = ins.conditionArity) :
      May m ins (conditions ++ stack) stack none
  | leave (stack : List Value) (hop : ins.opcode = some .leave) : May m ins stack [] none
  | size (v : Value) (stack : List Value) (hop : ins.opcode = some .sizeOf)
      (hv : ∀ type size, ins.operand.text? = some type → m.size? type = some size →
        v = size.fixed) :
      May m ins stack (v :: stack) (some v)
  | effect {pops pushes : Int} (popped pushed stack : List Value)
      (hop : ins.opcode = some .other ∨ ins.opcode = none)
      (heffect : ins.declaredEffect = some (pops, pushes))
      (hpops : popped.length = pops.toNat) (hpushes : pushed.length = pushes.toNat) :
      May m ins (popped ++ stack) (pushed ++ stack) pushed.head?
  | unknown (v : Option Value) (stack stack' : List Value)
      (hop : ins.opcode = some .other ∨ ins.opcode = none) (heffect : ins.declaredEffect = none) :
      May m ins stack stack' v

end Instruction

/-- What holds of the stack wherever a run goes on after a turn. -/
def Turn.Goes (p : List Value → Prop) : Turn → Prop
  | .next τ => p τ.stack
  | .jump _ τ => p τ.stack
  | .halted _ _ => True

/-- Values that are taken off are on top of what is left. -/
theorem Moment.exists_of_popMany? {n : Nat} {σ τ : Moment} {operands : List Value}
    (h : σ.popMany? n = some (operands, τ)) :
    operands.length = n ∧ σ.stack = operands.reverse ++ τ.stack := by
  obtain ⟨hlength, rfl, rfl⟩ := popMany?_eq_some h
  rw [List.length_reverse, List.length_take, Nat.min_eq_left hlength, List.reverse_reverse,
    List.take_append_drop]
  exact ⟨rfl, rfl⟩

/-- A size that is known is the one in the table. -/
theorem Machine.get?_of_size? {m : Machine} {type : String} {size : Value}
    (h : m.size? type = some size) :
    (m.sizes.toOption.bind fun table => table.get? type) = some size := by
  unfold size? at h
  split at h
  · cases h
  · cases h
  · rename_i heq
    rw [heq, h]

namespace Instruction

variable {P : Platform} {ins : Instruction}

/-- An operation takes its operands and gives a result. -/
theorem operate_may (hop : ins.opcode = some .arith) {op : ArithOp}
    (hoperand : ins.operand = .operation op) (σ : Moment) :
    (operate P op σ).Goes fun stack => ∃ v, ins.May P.machine σ.stack stack v := by
  unfold operate
  cases hpop : σ.popMany? op.arity with
  | none => trivial
  | some r =>
    obtain ⟨operands, τ⟩ := r
    obtain ⟨hlength, hstack⟩ := Moment.exists_of_popMany? hpop
    have hmay (v : Value) (hv : ∀ n,
        op.evaluateAt operands P.machine.width P.machine.policy = .ok (some n) → v = .int n) :
        ∃ w, ins.May P.machine σ.stack (v :: τ.stack) w :=
      hstack ▸ ⟨_, .arith operands v τ.stack hop hoperand hlength hv⟩
    dsimp only
    split
    · rename_i n hn
      refine hmay (.int n) fun k hk => ?_
      rw [hn] at hk
      cases hk
      rfl
    · -- The world gives a result only where the operation has none.
      rename_i hnone
      cases P.world.result σ.seen op operands with
      | none => trivial
      | some v => exact hmay v fun n hn => absurd hn (hnone n)

/-- An instruction of no other kind takes and leaves what it declares. -/
theorem affect_may (hop : ins.opcode = some .other) {σ τ : Moment}
    (h : affect P ins.copy σ = some τ) : ∃ v, ins.May P.machine σ.stack τ.stack v := by
  unfold affect at h
  rw [copy_declaredEffect] at h
  cases heffect : ins.declaredEffect with
  | none => exact ⟨none, .unknown _ _ _ (Or.inl hop) heffect⟩
  | some effect =>
    rw [heffect] at h
    obtain ⟨⟨operands, ρ⟩, hpop, rfl⟩ := Option.map_eq_some_iff.mp h
    obtain ⟨hlength, hstack⟩ := Moment.exists_of_popMany? hpop
    rw [hstack]
    exact ⟨_, .effect operands.reverse _ ρ.stack (Or.inl hop) heffect
      (List.length_reverse.trans hlength) ((List.length_map _).trans List.length_range)⟩

/-- In any world an instruction does one of the things that it may do. -/
theorem act_may (P : Platform) (ins : Instruction) (σ : Moment) :
    (ins.act P σ).Goes fun stack => ∃ v, ins.May P.machine σ.stack stack v := by
  obtain ⟨stack, locals, seen⟩ := σ
  unfold act perform
  rw [copy_opcode]
  -- Where a value is missing or a branch has no target the run ends, and nothing is to be shown.
  cases hop : ins.opcode with
  | none => trivial
  | some op =>
    cases op with
    | pushConst =>
      rw [copy_operand_toValue]
      exact ⟨_, .constant _ hop⟩
    | loadLocal => exact ⟨_, .load _ _ hop⟩
    | nop => exact ⟨_, .stay _ (Or.inl hop)⟩
    | storeLocal =>
      cases stack with
      | nil => trivial
      | cons v stack => exact ⟨_, .take v _ (Or.inl hop)⟩
    | dup =>
      cases stack with
      | nil => trivial
      | cons v stack => exact ⟨_, .dup v _ hop⟩
    | pop =>
      cases stack with
      | nil => trivial
      | cons v stack => exact ⟨_, .pop v _ hop⟩
    | branch =>
      dsimp only
      cases ins.copy.aims.head? with
      | none => trivial
      | some t => exact ⟨_, .stay _ (Or.inr hop)⟩
    | leave =>
      dsimp only
      cases ins.copy.aims.head? with
      | none => trivial
      | some t => exact ⟨_, .leave _ hop⟩
    | switch =>
      cases stack with
      | nil => trivial
      | cons v stack =>
        dsimp only [Moment.pop?_cons]
        cases ins.copy.chosen? v <;> exact ⟨_, .take v _ (Or.inr hop)⟩
    | arith =>
      dsimp only
      cases hcopy : ins.copy.operand with
      | value w => trivial
      | operation op => exact operate_may hop (copy_operand_operation.mp hcopy) _
    | condBranch =>
      dsimp only
      rw [copy_conditionArity]
      cases hpop : Moment.popMany? ins.conditionArity ⟨stack, locals, seen⟩ with
      | none => trivial
      | some r =>
        obtain ⟨operands, τ⟩ := r
        obtain ⟨hlength, hstack⟩ := Moment.exists_of_popMany? hpop
        have hmay : ins.May P.machine (operands.reverse ++ τ.stack) τ.stack none :=
          .test _ _ hop (List.length_reverse.trans hlength)
        rw [← hstack] at hmay
        dsimp only
        split
        · cases ins.copy.aims.head? with
          | none => trivial
          | some t => exact ⟨_, hmay⟩
        · exact ⟨_, hmay⟩
    | sizeOf =>
      dsimp only
      rw [copy_operand_text?]
      cases hfound : ins.operand.text?.bind fun type =>
          P.machine.sizes.toOption.bind fun table => table.get? type with
      | none =>
        refine ⟨_, .size _ _ hop fun type size htype hsize => ?_⟩
        rw [htype, Option.bind_some, Machine.get?_of_size? hsize] at hfound
        cases hfound
      | some found =>
        refine ⟨_, .size found.fixed _ hop fun type size htype hsize => ?_⟩
        rw [htype, Option.bind_some, Machine.get?_of_size? hsize] at hfound
        cases hfound
        rfl
    | other =>
      dsimp only
      cases haffect : affect P ins.copy ⟨stack, locals, seen⟩ with
      | none => trivial
      | some τ =>
        dsimp only
        split
        · trivial
        · exact affect_may hop haffect

end Instruction

/-- What is on the stack where a handler starts: the thrown object for those that take one. -/
inductive RegionKind.Hands : RegionKind → List Value → Prop where
  | catch (thrown : Value) : Hands .catch [thrown]
  | filter (thrown : Value) : Hands .filter [thrown]
  | finally : Hands .finally []
  | fault : Hands .fault []

/-- Where a walk is: in front of the instruction at a place in a block, or at the end of the
    block if there is none; with the stack that it has there. -/
structure Spot where
  block : Block
  place : Nat
  stack : List Value

namespace Spot

/-- The instruction that runs next. -/
def front? (σ : Spot) : Option Instruction := σ.block.code[σ.place]?

/-- Where control comes into a graph. -/
inductive Starts (g : Graph) : Spot → Prop where
  | entry {b : Block} (hb : g.entry? = some b) : Starts g ⟨b, 0, []⟩
  | handler {span : Span} {b : Block} {stack : List Value} (hspan : span ∈ g.spans)
      (hb : b ∈ g.blocks) (hfirst : span.handlerBlocks.head? = some b.label)
      (hstack : span.region.kind.Hands stack) : Starts g ⟨b, 0, stack⟩

/-- One step of a walk. -/
inductive Next (m : Machine) (g : Graph) : Spot → Spot → Prop where
  | within {b : Block} {place : Nat} {stack stack' : List Value} {ins : Instruction}
      {v : Option Value} (hfront : b.code[place]? = some ins) (hmay : ins.May m stack stack' v) :
      Next m g ⟨b, place, stack⟩ ⟨b, place + 1, stack'⟩
  | along {b c : Block} {stack : List Value} (hc : c ∈ g.blocks) (hedge : c.label ∈ b.succs) :
      Next m g ⟨b, b.code.length, stack⟩ ⟨c, 0, stack⟩

/-- A walk from where control comes in comes to a spot. -/
def Comes (m : Machine) (g : Graph) (σ : Spot) : Prop :=
  ∃ σ₀, Starts g σ₀ ∧ Relation.ReflTransGen (Next m g) σ₀ σ

variable {m : Machine} {g : Graph}

theorem Starts.mem {σ : Spot} (h : Starts g σ) : σ.block ∈ g.blocks := by
  cases h with
  | entry hb => exact List.mem_of_find?_eq_some hb
  | handler _ hb => exact hb

theorem Next.mem {σ τ : Spot} (h : Next m g σ τ) (hσ : σ.block ∈ g.blocks) :
    τ.block ∈ g.blocks := by
  cases h with
  | within => exact hσ
  | along hc => exact hc

/-- A walk stays in the graph. -/
theorem Comes.mem {σ : Spot} (h : Comes m g σ) : σ.block ∈ g.blocks := by
  obtain ⟨σ₀, hstarts, hwalk⟩ := h
  induction hwalk with
  | refl => exact hstarts.mem
  | tail _ hnext ih => exact hnext.mem ih

/-- The code in front of a spot and the code behind the instruction there. -/
theorem split_of_front {σ : Spot} {ins : Instruction} (h : σ.front? = some ins) :
    σ.block.code = σ.block.code.take σ.place ++ ins :: σ.block.code.drop (σ.place + 1) := by
  obtain ⟨hlt, rfl⟩ := List.getElem?_eq_some_iff.mp h
  rw [List.getElem_cons_drop, List.take_append_drop]

end Spot

end Untangle
