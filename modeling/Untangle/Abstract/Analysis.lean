/-
  Untangle.Abstract.Analysis

  The two analyses by name, and what each reports about its run.
-/
import Untangle.Abstract.Forward
import Untangle.Abstract.Solver
import Untangle.Graph.Reach
import Untangle.Text.Lower

namespace Untangle

/-- How facts are found. -/
inductive AnalysisKind where
  | forward
  | worklist
  deriving Repr, DecidableEq

namespace AnalysisKind

/-- Both analyses. -/
def all : List AnalysisKind := [.forward, .worklist]

/-- The name of an analysis. -/
def name : AnalysisKind → String
  | .forward => "forward"
  | .worklist => "worklist"

/-- The analysis of a name, in any case of letters. -/
def ofName? (s : String) : Option AnalysisKind :=
  all.find? fun k => k.name == Text.lower s

end AnalysisKind

/-- An analysis of a machine, and the order in which it takes successors if that matters
    to it. -/
structure Analysis where
  kind : AnalysisKind := .forward
  machine : Machine := {}
  schedule : Schedule := .hashed

/-- The course of an analysis: the visits made to find the entry stacks of blocks, what
    ended them before their time, and at the end each block with its entry stack. -/
structure Course where
  visits : List Arrival := []
  stop : Option Misuse := none
  arrivals : List Arrival

/-- What is to be told about an analysis, in order. -/
def Course.reports (m : Machine) (c : Course) : List Report :=
  Arrival.reports m c.visits ++ (c.stop.map Report.fault).toList ++ Arrival.reports m c.arrivals

/-- The outcome of an analysis: the messages on the way, and what was found or why it
    stopped. -/
structure Findings where
  notes : List String
  facts : Except Misuse Facts

namespace Analysis

/-- How an analysis goes about a graph. -/
def course (a : Analysis) (g : Graph) : Course :=
  match a.kind with
  | .forward => { arrivals := Forward.arrivals a.machine g }
  | .worklist =>
    let solver := Solver.solve a.machine g a.schedule
    { visits := solver.history.reverse, stop := solver.stop, arrivals := solver.arrivals g }

/-- What an analysis finds out, where every instruction can be run. -/
def facts (a : Analysis) (g : Graph) : Facts :=
  Arrival.facts a.machine (a.course g).arrivals

/-- The message at the end of an analysis. -/
def summary (a : Analysis) (c : Course) (facts : Facts) : String :=
  let known := toString facts.knownCount ++ " known fact(s)"
  match a.kind with
  | .forward => "forward pass: " ++ known
  | .worklist =>
    "worklist solver: " ++ known ++ " after " ++ toString c.visits.length ++ " visit(s)"

/-- Runs an analysis. -/
def findings (a : Analysis) (g : Graph) : Findings :=
  let c := a.course g
  match Report.told (c.reports a.machine) with
  | (notes, none) =>
    let facts := Arrival.facts a.machine c.arrivals
    ⟨notes ++ [a.summary c facts], .ok facts⟩
  | (notes, some fault) => ⟨notes, .error fault⟩

end Analysis

end Untangle
