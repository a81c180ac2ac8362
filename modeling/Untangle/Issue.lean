/-
  Untangle.Issue

  What can be wrong with the structure of a method.
-/
import Untangle.Value.Display

namespace Untangle

/-- The kinds of structural defects. -/
inductive IssueKind where
  | nullOpcode
  | danglingBranch
  | danglingRegion
  | emptyRegion
  | exitOutOfBounds
  | emptyBody
  deriving Repr, DecidableEq

/-- The name of a kind in messages. -/
def IssueKind.text : IssueKind → String
  | .nullOpcode => "null opcode"
  | .danglingBranch => "dangling branch target"
  | .danglingRegion => "dangling region boundary"
  | .emptyRegion => "empty region range"
  | .exitOutOfBounds => "exit target beyond handler end"
  | .emptyBody => "empty body"

/-- All kinds. -/
def IssueKind.all : List IssueKind :=
  [.nullOpcode, .danglingBranch, .danglingRegion, .emptyRegion, .exitOutOfBounds, .emptyBody]

/-- A structural defect. The detail is a text, unless it was flagged from outside with
    something else. The subject is the instruction concerned (its uid, or the value that
    should have been one), or null. -/
structure Issue where
  kind : IssueKind
  detail : Value
  subject : Value := .null

/-- The defect of a kind with a text about it. -/
def IssueKind.issue (kind : IssueKind) (detail : String) (subject : Value := .null) : Issue :=
  { kind, detail := .str detail, subject }

/-- The message about a defect. -/
def Issue.text (i : Issue) : String :=
  let place :=
    match i.subject with
    | .null => ""
    | v => " (uid " ++ v.display ++ ")"
  i.kind.text ++ place ++ ": " ++ i.detail.display

/-- The message about a list of defects. -/
def Issue.summary (issues : List Issue) : String :=
  let text := String.intercalate "; " (issues.map Issue.text)
  if text.isEmpty then "structural inconsistency" else text

end Untangle
