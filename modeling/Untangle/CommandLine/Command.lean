/-
  Untangle.CommandLine.Command

  The commands of the command line and how their words are read. A command has a place
  for at most one plain word; plain words without a place and words that look like an
  option and are none are refused once all others have been read.
-/
import Untangle.CommandLine.Option
import Untangle.Logging.Note
import Untangle.Number.Read

namespace Untangle.CommandLine

/-- What normalizing a file is to be done with. -/
structure NormalizeOptions where
  input : String := ""
  output : Option String := none
  config : Option String := none
  workers : Option Int := none
  logDir : Option String := none
  /-- Files are listings whatever they are called. -/
  text : Bool := false
  onlyWithDispatch : Bool := false
  /-- The summary is printed as JSON. -/
  json : Bool := false
  logLevel : Option Level := none

/-- A command. -/
inductive Command where
  | normalize (options : NormalizeOptions)
  /-- Lists the stages and the analyses. -/
  | stages
  /-- Lists the loggers in a scope. -/
  | loggers (scope : String)

/-- Why there is no command to run. -/
inductive Usage where
  /-- Help was asked for. -/
  | help
  /-- The words are not understood. -/
  | refused
  deriving Repr, DecidableEq

/-- The exit status that goes with it. -/
def Usage.status : Usage → Nat
  | .help => 0
  | .refused => 2

/-! ## Reading words -/

/-- The option that asks for help. -/
def helpOption : OptionSpec := ⟨["-h", "--help"], false⟩

/-- What is read into: options change it, and a plain word may have a place in it. -/
structure Reading (α : Type) where
  /-- Takes an option by its first name, with its value. -/
  option : String → String → α → Except Usage α
  /-- Takes the plain word. -/
  plain : String → α → α

/-- An option that takes effect, with its value. -/
abbrev Effect := OptionSpec × String

/-- The options that one word names, given the words after it: letters without a value
    can stand together in a word. Gives their effects and the words that are left. -/
def readUse (specs : List OptionSpec) (rest : List Word) : Nat → OptionUse →
    Except Usage (List Effect × List Word)
  | 0, _ => .error .refused
  | steps + 1, use =>
    match use.spec.takesValue, use.attached with
    | true, some value => .ok ([(use.spec, value)], rest)
    | true, none =>
      match rest with
      | .plain value :: rest => .ok ([(use.spec, value)], rest)
      | _ => .error .refused
    | false, none => .ok ([(use.spec, "")], rest)
    | false, some value =>
      match use.name.startsWith "--", value.toList with
      | false, c :: more =>
        let name := String.ofList ['-', c]
        match specOf? specs name with
        | some spec => do
          let attached := if more.isEmpty then none else some (String.ofList more)
          let (effects, rest) ← readUse specs rest steps { spec, name, attached }
          return ((use.spec, "") :: effects, rest)
        | none => .error .refused
      | _, _ => .error .refused

/-- Lets an option take effect. -/
def takeEffect {α : Type} (r : Reading α) (state : α) (effect : Effect) : Except Usage α :=
  if effect.1 == helpOption then .error .help
  else r.option (effect.1.names.head?.getD "") effect.2 state

/-- Reads words in order; each step takes at least one. With `free` the place of the
    plain word is not taken yet. Gives what was read, whether the place is still free,
    and whether words were left over. -/
def readWords {α : Type} (specs : List OptionSpec) (r : Reading α) :
    Nat → Bool → Bool → α → List Word → Except Usage (α × Bool × Bool)
  | 0, free, left, state, _ => .ok (state, free, left)
  | _, free, left, state, [] => .ok (state, free, left)
  | steps + 1, free, left, state, word :: rest =>
    match word with
    | .option use => do
      let (effects, rest) ← readUse specs rest (((use.attached.map String.length).getD 0) + 1) use
      let state ← effects.foldlM (takeEffect r) state
      readWords specs r steps free left state rest
    | .unknown _ => readWords specs r steps free true state rest
    | .plain text =>
      if free then readWords specs r steps false left (r.plain text state) (skipDivider rest)
      else readWords specs r steps free true state rest
    | .divider =>
      match free, rest with
      | true, .plain text :: rest => readWords specs r steps false left (r.plain text state) rest
      | _, _ => readWords specs r steps free true state rest
where
  /-- The double dash right behind the plain word belongs to it. -/
  skipDivider : List Word → List Word
    | .divider :: rest => rest
    | rest => rest

/-- Reads all words of a command. -/
def readAll {α : Type} (specs : List OptionSpec) (r : Reading α) (free : Bool) (state : α)
    (args : List String) : Except Usage (α × Bool × Bool) :=
  match words specs args with
  | .ok ws => readWords specs r (ws.length + 1) free false state ws
  | .error _ => .error .refused

/-! ## The commands -/

/-- The options of `normalize`. -/
def normalizeSpecs : List OptionSpec :=
  [helpOption, ⟨["-o", "--output"], true⟩, ⟨["--config"], true⟩, ⟨["--workers"], true⟩,
   ⟨["--log-dir"], true⟩, ⟨["--text"], false⟩, ⟨["--only-with-dispatch"], false⟩,
   ⟨["--json"], false⟩, ⟨["--log-level"], true⟩]

/-- Sets an option of `normalize`. -/
def NormalizeOptions.set (name value : String) (o : NormalizeOptions) :
    Except Usage NormalizeOptions :=
  match name with
  | "-o" => .ok { o with output := some value }
  | "--config" => .ok { o with config := some value }
  | "--workers" =>
    match Number.wholeNumber? value with
    | some n => .ok { o with workers := some n }
    | none => .error .refused
  | "--log-dir" => .ok { o with logDir := some value }
  | "--text" => .ok { o with text := true }
  | "--only-with-dispatch" => .ok { o with onlyWithDispatch := true }
  | "--json" => .ok { o with json := true }
  | "--log-level" =>
    match Level.choice? value with
    | some level => .ok { o with logLevel := some level }
    | none => .error .refused
  | _ => .error .refused

/-- Reads the words of `normalize`. The input has to be there. -/
def readNormalize (args : List String) : Except Usage Command := do
  let reading : Reading NormalizeOptions :=
    ⟨NormalizeOptions.set, fun text o => { o with input := text }⟩
  let (o, free, left) ← readAll normalizeSpecs reading true {} args
  if free || left then .error .refused else .ok (.normalize o)

/-- Reads the words of `stages`: there are none. -/
def readStages (args : List String) : Except Usage Command := do
  let reading : Reading Unit := ⟨fun _ _ _ => .error .refused, fun _ _ => ()⟩
  let (_, _, left) ← readAll [helpOption] reading false () args
  if left then .error .refused else .ok .stages

/-- Reads the words of `loggers`. Without a scope the loggers of the library are meant. -/
def readLoggers (args : List String) : Except Usage Command := do
  let reading : Reading String := ⟨fun _ _ _ => .error .refused, fun text _ => text⟩
  let args := if args == ["--"] then [] else args
  let (scope, _, left) ← readAll [helpOption] reading true "CFEX" args
  if left then .error .refused else .ok (.loggers scope)

/-- Reads the words behind the name of a command. -/
def readCommand (name : String) (args : List String) : Except Usage Command :=
  match name with
  | "normalize" => readNormalize args
  | "stages" => readStages args
  | "loggers" => readLoggers args
  | _ => .error .refused

/-- Reads a command line. In front of the name of the command only help can be asked for;
    whatever else looks like an option there is refused once the command has been read. -/
def readFrom (args : List String) : Except Usage Command :=
  match args with
  | [] => .error .refused
  | "--" :: _ => .error .refused
  | word :: rest =>
    match classify [helpOption] word with
    | .ok (.plain name) => readCommand name rest
    | .ok (.option use) =>
      match readUse [helpOption] [] (word.length + 1) use with
      | .ok _ => .error .help
      | .error u => .error u
    | .ok (.unknown _) =>
      match readFrom rest with
      | .error .help => .error .help
      | _ => .error .refused
    | .ok .divider | .error _ => .error .refused

end Untangle.CommandLine
