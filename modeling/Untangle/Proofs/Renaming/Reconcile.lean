/-
  Untangle.Proofs.Renaming.Reconcile

  Regions and exits of a graph with another numbering. Boundaries move to the same instructions
  and exits to the same targets, as many of them, and what cannot be kept is flagged alike.
-/
import Untangle.Proofs.Renaming.Graph
import Untangle.Proofs.Stage.Reconcile

namespace Untangle.Renaming

open Graph Reconcile

variable (σ : Renaming) {g : Graph}

/-! ## Regions -/

/-- An instruction that is recorded as an exit, where it is, is one. -/
def Leaves (g : Graph) (ins : Instruction) : Prop :=
  ∀ record, g.exits.find? (fun e => e.uid == ins.uid) = some record → ins.opcode = some .leave

theorem leave_operand {ins : Instruction} (hop : ins.opcode = some .leave) :
    (σ.instruction ins).operand.toValue = σ.value ins.operand.toValue :=
  σ.operand_of_single (Instruction.isBranch_of_opcode hop) (by rw [hop]; decide)

end Untangle.Renaming
