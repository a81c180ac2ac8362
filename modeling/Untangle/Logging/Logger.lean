/-
  Untangle.Logging.Logger

  Loggers and the tree that they form. The name of a logger has points in it; a logger
  stands below the nearest logger whose name is the part of its own up to a point, or
  below the root. A logger without a level of its own has that of the logger above it.

  A name can come to mean another logger: when a managed logger is asked for and the
  name means a plain one, the managed one takes over the name. Loggers that stood below
  the plain one stay there.
-/
import Untangle.Entries
import Untangle.Fault
import Untangle.Logging.Note

namespace Untangle

/-- The answer of a logger to whether it lets messages of a level pass, kept until the
    levels of loggers are changed. -/
structure LevelFlag where
  logger : Value
  level : Value
  /-- The state of the levels for which the answer was found. -/
  foundFor : Option Nat := none
  answer : Bool := false

/-- A source of messages. Loggers are known by their numbers, in the order in which they
    were made. -/
structure Logger where
  name : String
  /-- Messages below this level are dropped; zero stands for none. A truth value counts
      as one or zero. -/
  level : Value := .int 0
  /-- Managed loggers tell which method a message is about. -/
  managed : Bool := false
  /-- Whether messages go on to the logger above. -/
  propagate : Value := .bool true
  handlers : Nat := 0
  disabled : Bool := false
  /-- The logger above; only the root has none. -/
  parent : Option Nat := none
  debugFlag : Option LevelFlag := none
  deriving Inhabited

/-- The managed logger that takes over from a plain one. It passes messages on if they
    would be lost. -/
def Logger.takeOver (l : Logger) (level : Value) : Logger :=
  { l with
    level
    managed := true
    propagate := if l.handlers == 0 && !l.propagate.truthy then .bool true else l.propagate
    debugFlag := none }

/-- All loggers by number, and what their names mean now. -/
structure Loggers where
  all : List Logger
  named : List (String × Nat) := []
  /-- Counts the changes of levels that flags take notice of. -/
  version : Nat := 0

namespace Loggers

/-- The number of the root. -/
def root : Nat := 0

/-- The name of the root. -/
def rootName : String := "root"

/-- The root alone. -/
def bare : Loggers :=
  { all := [{ name := rootName, level := .int Level.warning }] }

/-- The logger of a number. -/
def at? (ls : Loggers) (n : Nat) : Option Logger := ls.all[n]?

/-- The loggers with one of them changed. -/
def change (ls : Loggers) (n : Nat) (f : Logger → Logger) : Loggers :=
  { ls with all := ls.all.modify n f }

/-! ## Names -/

/-- The place of the last point. -/
def lastPoint? (cs : List Char) : Option Nat :=
  let tail := cs.reverse.takeWhile (· != '.')
  if tail.length == cs.length then none else some (cs.length - tail.length - 1)

/-- The last point has something in front of it or is the first character. -/
theorem lastPoint?_lt {cs : List Char} {i : Nat} (h : lastPoint? cs = some i) :
    i < cs.length := by
  unfold lastPoint? at h
  simp only at h
  split at h
  · simp at h
  · rename_i hne
    have hle : (cs.reverse.takeWhile (· != '.')).length ≤ cs.length := by
      simpa using (List.takeWhile_sublist (p := (· != '.')) (l := cs.reverse)).length_le
    simp only [Option.some.injEq] at h
    have : (cs.reverse.takeWhile (· != '.')).length ≠ cs.length := by simpa using hne
    omega

/-- The parts of a name up to one of its points, the longest first. Of points without
    anything between them only the last counts. -/
def scopesWithin (name window : List Char) : List String :=
  match _h : lastPoint? window with
  | none => []
  | some 0 => []
  | some (i + 1) => String.ofList (name.take (i + 1)) :: scopesWithin name (window.take i)
  termination_by window.length
  decreasing_by
    have := lastPoint?_lt _h
    simp only [List.length_take]
    omega

/-- The names of the loggers that a name stands below, the nearest first. -/
def scopes (name : String) : List String :=
  scopesWithin name.toList name.toList

/-! ## Finding and making loggers -/

/-- The logger that the parts of a name lead to. -/
def above (ls : Loggers) (name : String) : Nat :=
  ((scopes name).findSome? fun scope => ls.named.lookup scope).getD root

/-- Whether a plain logger that stands above a new name should stand below it. -/
def adopts (ls : Loggers) (name : String) (l : Logger) : Bool :=
  !l.managed && (scopes l.name).contains name
    && !((l.parent.bind ls.at?).any fun p => p.name.startsWith name)

/-- The number of the logger that a name means; a plain one is made if there is none. -/
def fetch (ls : Loggers) (name : String) : Nat × Loggers :=
  if name.isEmpty || name == rootName then (root, ls)
  else
    match ls.named.lookup name with
    | some n => (n, ls)
    | none =>
      let n := ls.all.length
      let made : Logger := { name, parent := some (ls.above name) }
      let others := ls.all.map fun l => if ls.adopts name l then { l with parent := some n } else l
      (n, { ls with all := others ++ [made], named := Entries.put name n ls.named })

/-- The name of a managed logger that was asked for without a name. -/
def defaultName : String := "cfex.core.logging"

/-- A managed logger with a level takes over a name from the plain logger of a number. -/
def manage (ls : Loggers) (name : String) (n : Nat) (level : Value) : Nat × Loggers :=
  let taken := ((ls.at? n).getD { name }).takeOver level
  (ls.all.length,
    { ls with all := ls.all ++ [taken], named := Entries.put name ls.all.length ls.named })

/-- An action on the loggers. What was made before a fault stays made. -/
abbrev Act := EStateM Fault Loggers

/-- Goes on with a result that does not change the loggers. -/
def liftMisuse {α : Type} (r : Except Misuse α) : Act α :=
  match r with
  | .ok a => pure a
  | .error m => throw (.misuse m)

instance : MonadLift (Except Misuse) Act := ⟨liftMisuse⟩

/-- The number of the logger that a value names; what counts as absent names the root. -/
def fetchNamed (name : Value) : Act Nat := do
  match name with
  | .str s => modifyGet fun ls => ls.fetch s
  | v => if v.truthy then throw (.misuse .notAText) else return root

/-- The level of a managed logger that takes over from a plain one: that one's level,
    unless it has none or lets more pass than the default. -/
def takenLevel (level default : Value) : Except Misuse Value := do
  let own := level.asInt?.getD 0
  if own == 0 then Level.ofValue default
  else if ← default.isAbove own then Level.ofValue default
  else return level

/-- The number of the managed logger that a value names. -/
def get (name : Value) (default : Value := .int Level.info) : Act Nat := do
  let name := if name.truthy then name else .str defaultName
  let n ← fetchNamed name
  match (← MonadState.get).at? n with
  | some l =>
    if l.managed then return n
    let level ← takenLevel l.level default
    modifyGet fun ls => ls.manage name.display n level
  | none => return n

/-! ## Levels -/

/-- The level of the first logger that has one, going up at most so many steps. -/
def levelFrom (ls : Loggers) : Nat → Nat → Value
  | 0, _ => .int 0
  | steps + 1, n =>
    match ls.at? n with
    | none => .int 0
    | some l =>
      if l.level.truthy then l.level
      else
        match l.parent with
        | some p => levelFrom ls steps p
        | none => .int 0

/-- The level from which a logger lets messages pass. -/
def effectiveLevel (ls : Loggers) (n : Nat) : Value :=
  ls.levelFrom ls.all.length n

/-- The level from which the logger of a name lets messages pass; a new one has the usual
    level. -/
def levelOf (ls : Loggers) (name : String) : Level :=
  match (get (.str name)).run ls with
  | .ok n ls => (ls.effectiveLevel n).asInt?.getD 0
  | .error _ _ => 0

/-- Whether a logger lets messages of a level pass. None of a level that is not above
    zero pass. -/
def isEnabled (ls : Loggers) (n : Nat) (level : Value) : Except Misuse Bool := do
  if (ls.at? n).any (·.disabled) then return false
  let level ← level.asKey
  let least := (ls.effectiveLevel n).asInt?.getD 0
  if !(← level.isAbove 0) then return false
  match ← level.compareWhole least with
  | some .lt | none => return false
  | some _ => return true

/-- Gives a logger a level. -/
def setLevel (n : Nat) (level : Value) : Act Unit := do
  let level ← Level.ofValue level
  modify fun ls => ls.change n fun l => { l with level }

/-- Gives the logger that a value names a level, tells it whether to pass messages on, and
    adds handlers to it. -/
def equip (name level propagate handlers : Value) : Act Nat := do
  let n ← fetchNamed name
  setLevel n level
  modify fun ls => ls.change n fun l => { l with propagate }
  let some count := handlers.asInt? | throw (.misuse .notANumber)
  modify fun ls => ls.change n fun l => { l with handlers := l.handlers + count.toNat }
  return n

/-- Makes all flags ask anew. -/
def touch : Act Unit :=
  modify fun ls => { ls with version := ls.version + 1 }

/-- Gives the managed logger that a value names the level of a name, and makes all flags
    ask anew. -/
def setLevelByName (name levelName : Value) : Act Unit := do
  let .str wanted := levelName | throw (.misuse .noSuchPart)
  match Level.ofName? wanted with
  | none => throw (.unknownLevel wanted)
  | some level =>
    let n ← get name (.int level)
    setLevel n (.int level)
    touch

/-! ## Lists of loggers -/

/-- The loggers that have handlers of their own when messages are written to a file. -/
def configured : List String :=
  ["CFEX", "CFEX.engine", "CFEX.cfg", "CFEX.analysis", "CFEX.pass", "CFEX.reconstruct",
   "CFEX.cli"]

/-- The names of all loggers, in order. -/
def names (ls : Loggers) : List String :=
  let known := ls.named.map (·.1)
  (known ++ configured.filter fun name => !known.contains name).mergeSort (· ≤ ·)

/-- The names of all loggers, or of one and those below it, in order. -/
def available (ls : Loggers) (scope : Value) : Except Misuse (List String) :=
  match scope with
  | .null => .ok ls.names
  | .str s => .ok (ls.names.filter fun name => name == s || name.startsWith (s ++ "."))
  | _ => .error .notAText

/-- The loggers that the library uses, in the order in which they are made. -/
def initial : Loggers :=
  ["CFEX.config", "CFEX", "CFEX.cfg", "CFEX.analysis", "CFEX.pass", "CFEX.pass.switch",
   "CFEX.pass.junk", "CFEX.pass.fold", "CFEX.reconstruct", "CFEX.pass.eh", "CFEX.engine",
   "CFEX.cli"].foldl (fun ls name =>
      let (n, ls) := ls.fetch name
      (ls.manage name n (.int Level.info)).2) bare

end Loggers

namespace LevelFlag

/-- A flag as it is shown. -/
def text (f : LevelFlag) : Except Misuse String := do
  return "<LevelFlag " ++ f.logger.display ++ ">=" ++ (← Level.title f.level) ++ ">"

/-- Asks a flag. The logger is asked only if levels have changed since. -/
def ask (f : LevelFlag) : Loggers.Act (Bool × LevelFlag) := do
  let version := (← get).version
  if f.foundFor == some version then return (f.answer, f)
  let n ← Loggers.get f.logger
  let answer ← (← get).isEnabled n f.level
  return (answer, { f with foundFor := some version, answer })

end LevelFlag

/-- Asks the flag that a logger keeps for debugging messages. -/
def Loggers.debugOn (name : Value) : Loggers.Act Bool := do
  let n ← Loggers.get name
  match (← MonadState.get).at? n with
  | none => return false
  | some l =>
    let flag := l.debugFlag.getD { logger := .str l.name, level := .int Level.debug }
    let (answer, flag) ← flag.ask
    modify fun ls => ls.change n fun l => { l with debugFlag := some flag }
    return answer

end Untangle
