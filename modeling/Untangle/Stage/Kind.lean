/-
  Untangle.Stage.Kind

  The stages of normalization: their names, what they do, and their options.
-/
import Untangle.Text.Lower
import Untangle.Value.Table

namespace Untangle

/-- The stages, in the order in which they run. -/
inductive StageKind where
  | switchResolver
  | junkEliminator
  | constantFolder
  | exceptionReconciler
  deriving Repr, DecidableEq

/-- An option of a stage. -/
structure StageOption where
  name : String
  default : Value
  description : String

namespace StageKind

/-- All stages, in the order in which they run. -/
def all : List StageKind :=
  [.switchResolver, .junkEliminator, .constantFolder, .exceptionReconciler]

/-- The name of a stage in settings and reports. -/
def key : StageKind → String
  | .switchResolver => "switch_resolver"
  | .junkEliminator => "junk_eliminator"
  | .constantFolder => "constant_folder"
  | .exceptionReconciler => "exception_reconciler"

/-- The stage of a name, in any case of letters. -/
def ofKey? (s : String) : Option StageKind :=
  all.find? fun k => k.key == Text.lower s

/-- The name of a stage for people. -/
def title : StageKind → String
  | .switchResolver => "Switch resolver"
  | .junkEliminator => "Junk eliminator"
  | .constantFolder => "Constant folder"
  | .exceptionReconciler => "Exception region reconciler"

/-- What a stage does. -/
def description : StageKind → String
  | .switchResolver => "Replace a dispatch with a constant in-range selector by a direct branch"
  | .junkEliminator => "Remove no-ops and duplicate/discard pairs"
  | .constantFolder =>
    "Replace size queries and pure constant arithmetic with a constant push"
  | .exceptionReconciler =>
    "Rewrite region boundaries and exit targets after instructions move"

/-- The options of a stage. -/
def options : StageKind → List StageOption
  | .constantFolder =>
    [⟨"fold_sizeof", .bool true, "Fold size queries of known primitive types"⟩,
     ⟨"fold_arithmetic", .bool true, "Fold arithmetic over constant pushes"⟩]
  | _ => []

end StageKind

/-- A stage with the values given for its options. -/
structure Stage where
  kind : StageKind
  given : Table := []

namespace Stage

/-- The value of an option. -/
def option (s : Stage) (name : String) : Except Misuse Value :=
  match s.kind.options.find? fun o => o.name == name with
  | some o => .ok ((s.given.get? name).getD o.default)
  | none => .error .noSuchKey

/-- Whether an option is on. -/
def isOn (s : Stage) (name : String) : Bool :=
  match s.option name with
  | .ok v => v.truthy
  | .error _ => false

/-- The keys given values that are no options of the stage. -/
def unknownOptions (s : Stage) : List Value :=
  s.given.keysBeyond (s.kind.options.map (·.name))

end Stage

end Untangle
