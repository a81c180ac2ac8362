/-
  Untangle.Logging.Note

  Messages about a run. Each has the logger it comes from, a level of severity, and the
  method that it is about.
-/
import Untangle.Value.Display

namespace Untangle

/-- Severity of messages. -/
abbrev Level := Int

namespace Level

def debug : Level := 10
def info : Level := 20
def warning : Level := 30
def error : Level := 40
def critical : Level := 50

/-- The names of the levels, and the level that stands for none. -/
def names : List (Level × String) :=
  [(critical, "CRITICAL"), (error, "ERROR"), (warning, "WARNING"), (info, "INFO"),
   (debug, "DEBUG"), (0, "NOTSET")]

/-- The name of a level; a level without one is shown by its number. -/
def name (l : Level) : String :=
  (names.lookup l).getD ("Level " ++ toString l)

/-- The levels by name; some have a second name. -/
def byName : List (String × Level) :=
  names.map (fun (l, name) => (name, l)) ++ [("FATAL", critical), ("WARN", warning)]

/-- The level that a value stands for: a number, or a truth value that counts as one, or
    the exact name of a level. -/
def ofValue (v : Value) : Except Misuse Value :=
  match v with
  | .bool _ | .int _ => .ok v
  | .str s =>
    match byName.lookup s with
    | some l => .ok (.int l)
    | none => .error .notAChoice
  | _ => .error .notANumber

/-- How a value given for a level is shown: a number by the name of its level, a name by
    its number. -/
def title (v : Value) : Except Misuse String := do
  let v ← v.asKey
  match v.wholeNumber?.bind fun n => names.lookup n, v with
  | some name, _ => return name
  | none, .str s =>
    match byName.lookup s with
    | some l => return toString l
    | none => return "Level " ++ s
  | none, v => return "Level " ++ v.display

/-- The capital of a letter whose capital is in ASCII; other characters stay. Two letters
    outside ASCII are among them: the dotless i and the long s. -/
def capital (c : Char) : Char :=
  if c.toNat == 0x131 then 'I' else if c.toNat == 0x17F then 'S' else c.toUpper

/-- The level of a name, in any case of letters. -/
def ofName? (s : String) : Option Level :=
  let upper := String.ofList (s.toList.map capital)
  byName.lookup upper

/-- The levels that a command line can ask for, the lowest first. -/
def choices : List Level := [debug, info, warning, error, critical]

/-- The level that a command line asks for: by its name, in any case of letters. -/
def choice? (s : String) : Option Level :=
  let upper := String.ofList (s.toList.map capital)
  choices.find? fun l => l.name == upper

end Level

/-- A message. -/
structure Note where
  logger : String
  level : Level
  /-- The method that is worked on, or an empty text. -/
  method : Value := .str ""
  text : String

namespace Note

/-- The part of a line that names the method. -/
def methodPart (method : Value) : String :=
  if !method.truthy then ""
  else if method.display.startsWith " - " then method.display
  else " - " ++ method.display

/-- The line of a message, from its parts. -/
def lineOf (logger levelText : String) (method : Value) (text : String) : String :=
  logger ++ "|" ++ levelText ++ methodPart method ++ "|" ++ text

/-- A message as a line. -/
def line (n : Note) : String :=
  lineOf n.logger n.level.name n.method n.text

/-- The lowest level of the messages that are seen when a level is set for all loggers: a
    level that stands for none leaves the one of the root. -/
def threshold (level : Level) : Level :=
  if level == 0 then Level.warning else level

/-- The messages that are seen when a level is set for all loggers, as lines. -/
def linesFrom (level : Level) (notes : List Note) : List String :=
  (notes.filter fun n => threshold level ≤ n.level).map line

end Note

end Untangle
