/-
  Untangle.Logging.Context

  What is stamped on messages: a table that tells, first of all, which method is being
  worked on.
-/
import Untangle.Logging.Note
import Untangle.Text.Template
import Untangle.Value.Table

namespace Untangle

/-- What is stamped on messages, as it was given: a table, or what makes one. -/
structure Context where
  given : Value := .null

namespace Context

/-- The key of the method. -/
def methodKey : String := "method"

/-- What is stamped; where nothing was given, it says that there is no method. -/
def stamped (c : Context) : Value :=
  if c.given.truthy then c.given else .dict [(methodKey, .str "")]

/-- The context with another method. -/
def withMethod (c : Context) (method : Value) : Except Misuse Context :=
  match c.stamped with
  | .dict entries => .ok ⟨.dict (Entries.put methodKey method entries)⟩
  | _ => .error .notIterable

/-- The context without a method. -/
def withoutMethod (c : Context) : Except Misuse Context := do
  let table ← Table.ofValue c.stamped
  return ⟨Table.toObject (table.filter fun (key, _) => key != .str methodKey)⟩

/-- The keys that a message has anyway, so that no table may set them. -/
def reserved : List String :=
  ["name", "msg", "args", "levelname", "levelno", "pathname", "filename", "module", "exc_info",
   "exc_text", "stack_info", "lineno", "funcName", "created", "msecs", "relativeCreated",
   "thread", "threadName", "processName", "process", "message", "asctime"]

/-- The key that takes the place of what a message needs to show its text. -/
def textKey : String := "getMessage"

/-- The line of the message that a logger makes from a template and values, with its
    stamp. -/
def lineOf (c : Context) (logger : String) (level : Value) (template : String)
    (values : List Value) : Except Misuse String := do
  let table ← Table.ofValue c.stamped
  let levelText ← Level.title level
  if reserved.any fun name => (table.get? name).isSome then throw .noSuchKey
  if (table.get? textKey).isSome then throw .notAText
  let text ← Template.fill template values
  return Note.lineOf logger levelText ((table.get? methodKey).getD (.str "")) text

end Context

end Untangle
