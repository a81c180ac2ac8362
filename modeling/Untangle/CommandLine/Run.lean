/-
  Untangle.CommandLine.Run

  Running the commands on a host: normalizing a file, listing the stages, and listing
  the loggers.
-/
import Untangle.Batch
import Untangle.CommandLine.Command
import Untangle.CommandLine.Host
import Untangle.Encoding.Document
import Untangle.Listing.Parser
import Untangle.Listing.Printer
import Untangle.Logging.Logger
import Untangle.Settings.Document
import Untangle.Text.Template

namespace Untangle.CommandLine

/-- A command on a host. It gives its exit status. -/
abbrev Run (m : Type → Type) := ExceptT Fault m

variable {m : Type → Type} [Monad m]

/-- Goes on with the result of a file operation. -/
def orFault {α : Type} (action : m (Except FileFault α)) : Run m α := do
  match ← ExceptT.lift action with
  | .ok a => return a
  | .error cause => throw (.file cause)

/-- Goes on with a result that can only be misused. -/
def orMisuse {α : Type} (r : Except Misuse α) : Run m α :=
  ExceptT.mk (pure (Fault.lift r))

/-! ## Files -/

/-- The endings of the names of listings. -/
def listingSuffixes : List String := [".il", ".txt", ".cfex", ".asm"]

/-- Whether a file is a listing. -/
def isListing (path : Path) (forced : Bool) : Bool :=
  forced || listingSuffixes.contains (Text.lower path.suffix)

/-- The methods in the text of a file. -/
def methodsOf (path : Path) (forced : Bool) (text : String) : Except Fault (List Method) :=
  if isListing path forced then Listing.parseMethods text else Encoding.readText text

/-- The text of a file of methods. -/
def textOf (path : Path) (forced : Bool) (methods : List Method) : Except Fault String :=
  if isListing path forced then do
    return String.intercalate "\n" (← Fault.lift (methods.mapM Listing.methodText))
  else .ok (Encoding.fileText methods)

/-- Where the result goes if nothing is said about it: next to the input. -/
def defaultOutput (input : Path) : Path :=
  input.withName (input.stem ++ "_cleaned" ++ input.suffix)

/-! ## Settings -/

/-- Whether a fault is told as a complaint; the others break off the run. -/
def isTold : Fault → Bool
  | .malformed .. | .setting _ | .overflow _ | .inconsistent _ | .badDocument => true
  | .file _ | .misuse _ | .unknownLevel _ => false

/-- The settings of the user, or those of a file. -/
def readSettings (h : Host m) (config : Option String) : Run m Settings := do
  match config.filter fun name => !name.isEmpty with
  | some name =>
    let text ← orFault (h.read (Path.ofText name))
    liftExcept (Settings.readText text)
  | none =>
    let path := h.home.join (Path.ofText "options.json")
    if ← ExceptT.lift (h.isFile path) then
      let text ← orFault (h.read path)
      liftExcept (Settings.readText text)
    else liftExcept (Settings.ofUser none)
where
  liftExcept {α : Type} (r : Except Fault α) : Run m α := ExceptT.mk (pure r)

/-- Settings with what the command line says instead. -/
def overridden (s : Settings) (o : NormalizeOptions) : Except Fault Settings := do
  let s := match o.workers with
    | some n => { s with workers := .int n }
    | none => s
  let s := match o.logDir with
    | some dir => { s with logDir := some (Path.ofText dir) }
    | none => s
  let s := if o.onlyWithDispatch then { s with onlyWithDispatch := .bool true } else s
  s.validate
  return s

/-! ## Logs -/

/-- Where messages go: nowhere, or to a file and in part to the output. -/
structure Log where
  file : Option Path
  threshold : Level

/-- The name of the log file. -/
def logName : String := "cfex.log"

/-- The loggers whose messages are also printed. -/
def printedLoggers : List String := ["CFEX", "CFEX.engine", "CFEX.cli"]

/-- A message as a log line. -/
def logLine (timeOfDay : String) (n : Note) : String :=
  timeOfDay ++ " - " ++ n.logger ++ " - " ++ n.level.name ++ Note.methodPart n.method ++ " - "
    ++ n.text

/-- Writes a message. -/
def Log.put (log : Log) (h : Host m) (n : Note) : Run m Unit := do
  match log.file with
  | some file =>
    if log.threshold ≤ n.level then
      let line := logLine (← ExceptT.lift h.timeOfDay) n
      if printedLoggers.contains n.logger && Level.info ≤ n.level then
        ExceptT.lift (h.print line)
      orFault (h.append file (line ++ "\n"))
  | none => return ()

/-- Opens the log of a run. -/
def openLog (h : Host m) (s : Settings) (threshold : Level) : Run m Log := do
  match ← orMisuse s.logPlace with
  | some dir =>
    orFault (h.makeDirectory dir)
    let file := dir.join (Path.ofText logName)
    match ← ExceptT.lift (h.append file "") with
    | .ok _ => return ⟨some file, threshold⟩
    | .error _ => throw (.misuse .notAChoice)
  | none => return ⟨none, threshold⟩

/-! ## Normalizing -/

/-- A message of the command line itself. -/
def ownNote (text : String) : Note :=
  { logger := "CFEX.cli", level := Level.info, text }

/-- Milliseconds as seconds with three decimals. -/
def secondsText (ms : Nat) : String :=
  Number.withPoint 3 false ms

/-- The summary of a run as an object, its keys in order. -/
def summaryValue (stats : Statistics) (ms : Nat) (output : Path) : Except Misuse Value := do
  let sorted (entries : List (String × Value)) := entries.mergeSort fun a b => a.1 ≤ b.1
  let inner (v : Value) : Value :=
    match v with
    | .dict entries => .dict (sorted entries)
    | v => v
  return .dict (sorted (((← stats.summary).map fun (key, v) => (key, inner v))
    ++ [("elapsed", .float (Float.ofScientific ms true 3)), ("output", .str output.text)]))

/-- The lines that tell how a run went. -/
def summaryLines (outcomes : List Outcome) (stats : Statistics) (ms : Nat) (output : Path) :
    List String :=
  ((outcomes.filter (·.reverted)).map fun o =>
    o.name.display ++ ": not rewritten (" ++ o.reason ++ ")")
  ++ ["Cases fixed: " ++ stats.switchesResolved.display,
    "Methods rewritten: " ++ toString stats.rewritten ++ "/" ++ toString stats.seen ++ " ("
      ++ toString stats.reverted ++ " reverted)",
    "Elapsed: " ++ secondsText ms ++ "s",
    "Saved to " ++ output.text]

/-- Normalizes the methods of a file that has been read. -/
def normalizeMethods (h : Host m) (o : NormalizeOptions) (s : Settings) (log : Log)
    (input : Path) (methods : List Method) : Run m Nat := do
  let count := toString methods.length ++ " method(s)"
  log.put h (ownNote ("Loaded " ++ count ++ " from " ++ input.text))
  if let .ok workers := s.workers.towardZero then
    log.put h (ownNote ("Normalizing " ++ count ++ " with " ++ toString workers ++ " worker(s)"))
  let start ← ExceptT.lift h.clock
  let results := Batch.run s methods
  (results.flatMap (·.2)).forM (log.put h)
  let outcomes := results.map (·.1)
  let stats ← orMisuse (Batch.statistics outcomes)
  let ms := (← ExceptT.lift h.clock) - start
  let output :=
    match o.output.filter fun name => !name.isEmpty with
    | some name => Path.ofText name
    | none => defaultOutput input
  orFault (h.makeDirectory output.parent)
  let text ← ExceptT.mk (pure (textOf output o.text (outcomes.map (·.body))))
  orFault (h.write output text)
  (← orMisuse stats.reportNotes).forM (log.put h)
  if o.json then
    let summary ← orMisuse (summaryValue stats ms output)
    ExceptT.lift (h.print (Json.indented summary))
  else (summaryLines outcomes stats ms output).forM fun line => ExceptT.lift (h.print line)
  return 0

/-- Runs `normalize`. -/
def runNormalize (h : Host m) (o : NormalizeOptions) : Run m Nat := do
  let input := Path.ofText o.input
  let settings ← ExceptT.lift (ExceptT.run (do
    let s ← readSettings h o.config
    ExceptT.mk (pure (overridden s o)) : Run m Settings))
  match settings with
  | .error cause =>
    if isTold cause || cause matches .file _ then
      ExceptT.lift (h.complain (.badSettings cause))
      return 2
    throw cause
  | .ok s =>
    let log ← openLog h s (o.logLevel.getD Level.info)
    match ← ExceptT.lift (h.read input) with
    | .error .missing =>
      ExceptT.lift (h.complain (.noSuchFile input))
      return 2
    | .error cause => throw (.file cause)
    | .ok text =>
      match methodsOf input o.text text with
      | .ok methods => normalizeMethods h o s log input methods
      | .error cause =>
        if isTold cause then
          ExceptT.lift (h.complain (.unreadable input cause))
          return 2
        throw cause

/-! ## Lists -/

/-- The stages with their options, and the analyses. -/
def stageLines : List String :=
  let optionLine (o : StageOption) : String :=
    "    " ++ o.name ++ " (default " ++ o.default.quoted ++ "): " ++ o.description
  (StageKind.all.flatMap fun k =>
    (k.key ++ ": " ++ k.description) :: k.options.map optionLine)
  ++ ["analyses: " ++ String.intercalate ", "
      ((AnalysisKind.all.map AnalysisKind.name).mergeSort (· ≤ ·))]

/-- The loggers in a scope with their levels. -/
def loggerLines (scope : String) : List String :=
  let ls := Loggers.initial
  ((ls.available (.str scope)).toOption.getD []).map fun name =>
    name ++ " " ++ Level.name (ls.levelOf name)

/-- Runs a command. -/
def run (h : Host m) : Command → Run m Nat
  | .normalize o => runNormalize h o
  | .stages => do
    stageLines.forM fun line => ExceptT.lift (h.print line)
    return 0
  | .loggers scope => do
    (loggerLines scope).forM fun line => ExceptT.lift (h.print line)
    return 0

end Untangle.CommandLine
