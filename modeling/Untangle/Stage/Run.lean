/-
  Untangle.Stage.Run

  Running a stage by its kind.
-/
import Untangle.Stage.Fold
import Untangle.Stage.Junk
import Untangle.Stage.Reconcile
import Untangle.Stage.Resolve

namespace Untangle.Stage

/-- Warnings of keys that are given values but are no options of the stage. -/
def unknownNotes (s : Stage) : List Note :=
  s.unknownOptions.map fun key =>
    { logger := "CFEX.pass", level := Level.warning
      text := "Unknown option " ++ key.quoted ++ " for stage " ++ s.kind.title }

/-- Warns of keys that are given values but are no options of the stage. -/
def warnUnknown (s : Stage) : Work Unit :=
  s.unknownNotes.forM fun n => Work.log n.logger n.level n.text

/-- Runs a stage, and gives the number of changes. -/
def run (s : Stage) : Work Nat :=
  match s.kind with
  | .switchResolver => resolveSwitches
  | .junkEliminator => eliminateJunk
  | .constantFolder => s.foldConstants
  | .exceptionReconciler => reconcile

end Untangle.Stage
