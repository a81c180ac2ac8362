/-
  Untangle.Proofs.Renaming.Outcome

  Uids are only names (`Method.normalize_renamed`). A method with another numbering is normalized
  to the same outcome: the same stages change as much, and what is written out differs by its
  numbering only. New instructions get the numbers after those that are there; where a renaming
  moves these, it has to be read as going on with them.
-/
import Untangle.Proofs.Renaming.Onward
import Untangle.Proofs.Renaming.Pipeline

namespace Untangle

open Graph

/-! ## The end of the work -/

namespace Pipeline

variable {w : Workbench}

/-- What a computation comes to, the workbench apart. -/
def result {α : Type} : EStateM.Result Fault Workbench α → Except Fault α
  | .ok a _ => .ok a
  | .error f _ => .error f

/-- What the end of the work comes to, where all names can be looked up. -/
def ending (m : Method) (changes : List (String × Nat)) (issues : List Issue) (g : Graph) :
    Except Fault Outcome :=
  let body := g.relinked.toMethod
  let counts := changes.map fun p => (p.1, (p.2 : Int))
  if !issues.isEmpty then .error (.inconsistent issues)
  else if changes.all fun p => p.2 == 0 then
    .ok { name := m.name, body := m, reason := "no applicable patterns"
          loopsDetected := g.backEdges.length, changes := counts }
  else if !body.issues.isEmpty then .error (.inconsistent body.issues)
  else
    .ok { name := m.name, body, rewritten := true, reason := "rewritten"
          switchesResolved := (changes.lookup StageKind.switchResolver.key).getD 0
          loopsDetected := g.backEdges.length, changes := counts }

end Pipeline

namespace Renaming

open Pipeline Reconcile

variable {σ : Renaming} {w v : Workbench} {P : Platform} {g₀ h₀ : Graph} {settings : Settings}

end Renaming

/-! ## Normalization -/

/-- What comes of normalizing a method: what the work comes to, or the method as it was. -/
def Outcome.settle (m : Method) : Except Fault Outcome → Outcome
  | .ok o => o
  | .error f => .revert m f

namespace Method

open Renaming

end Method

end Untangle
