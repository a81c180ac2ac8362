/-
  Untangle.Batch

  Normalizing a list of methods. They are independent of one another, and the outcomes
  come in the order of the methods.
-/
import Untangle.Statistics

namespace Untangle.Batch

/-- Normalizes one method of a batch, unless it is to be left out. -/
def runOne (settings : Settings) (m : Method) : Outcome × List Note :=
  if settings.onlyWithDispatch.truthy && !m.hasDispatch then (.skip m, [])
  else Pipeline.run settings m

/-- Normalizes the methods of a batch. -/
def run (settings : Settings) (methods : List Method) : List (Outcome × List Note) :=
  methods.map (runOne settings)

/-- The outcomes of a batch. -/
def outcomes (settings : Settings) (methods : List Method) : List Outcome :=
  (run settings methods).map (·.1)

/-- The events of a batch, in order. -/
def events (outcomes : List Outcome) : List Event :=
  [.batchStart outcomes.length] ++ outcomes.flatMap (fun o => Event.ofReport o.report)
    ++ [.batchEnd outcomes.length]

/-- The statistics of a batch. -/
def statistics (outcomes : List Outcome) : Except Misuse Statistics :=
  Statistics.recordAll {} (outcomes.map Outcome.report)

end Untangle.Batch
