/-
  Untangle.CommandLine.Option

  Words of a command line. A word that starts with a dash names an option: in full, by a
  beginning of its name that fits no other, or by a letter with its value right behind
  it. Other words, and all words behind a double dash, are plain.
-/
import Untangle.Text.Digit

namespace Untangle.CommandLine

/-- An option: its names, and whether a value goes with it. -/
structure OptionSpec where
  names : List String
  takesValue : Bool := true
  deriving Repr, DecidableEq, Inhabited

/-- An option as a word names it. -/
structure OptionUse where
  spec : OptionSpec
  name : String
  /-- The value that stands in the same word. -/
  attached : Option String := none

/-- A word. -/
inductive Word where
  | plain (text : String)
  /-- The double dash. -/
  | divider
  | option (use : OptionUse)
  /-- It looks like an option, and is none. -/
  | unknown (text : String)

/-- A word names an option by a beginning that several names have. -/
inductive Ambiguous where
  | ambiguous

/-- The option of a name. -/
def specOf? (specs : List OptionSpec) (name : String) : Option OptionSpec :=
  specs.find? fun s => s.names.contains name

/-- All options with each of their names. -/
def namedSpecs (specs : List OptionSpec) : List (OptionSpec × String) :=
  specs.flatMap fun s => s.names.map fun name => (s, name)

/-- A word cut at its first equals sign. -/
def cutAtEquals (word : String) : String × Option String :=
  let cs := word.toList
  match cs.dropWhile (· != '=') with
  | [] => (word, none)
  | _ :: rest => (String.ofList (cs.takeWhile (· != '=')), some (String.ofList rest))

/-- The options that a word can stand for although it is not the name of one. -/
def candidates (specs : List OptionSpec) (word : String) : List OptionUse :=
  if word.startsWith "--" then
    let (start, attached) := cutAtEquals word
    (namedSpecs specs).filterMap fun (spec, name) =>
      if name.startsWith start then some { spec, name, attached } else none
  else
    let letter := String.ofList (word.toList.take 2)
    let rest := String.ofList (word.toList.drop 2)
    (namedSpecs specs).filterMap fun (spec, name) =>
      if name == letter then some { spec, name, attached := some rest }
      else if name.startsWith word then some { spec, name }
      else none

/-- Characters without a line break at their end. -/
def withoutBreak (cs : List Char) : List Char :=
  if cs.getLast? == some '\n' then cs.dropLast else cs

/-- Whether a word is a negative number; a line break may follow it. -/
def isNegativeNumber (word : String) : Bool :=
  match withoutBreak word.toList with
  | '-' :: cs =>
    let whole := cs.takeWhile Text.isDecimal
    match cs.dropWhile Text.isDecimal with
    | [] => !whole.isEmpty
    | '.' :: rest => !rest.isEmpty && rest.all Text.isDecimal
    | _ => false
  | _ => false

/-- What a word in front of the double dash is. -/
def classify (specs : List OptionSpec) (word : String) : Except Ambiguous Word :=
  if !word.startsWith "-" || word == "-" then .ok (.plain word)
  else
    match specOf? specs word with
    | some spec => .ok (.option { spec, name := word })
    | none =>
      match cutAtEquals word with
      | (name, some value) =>
        match specOf? specs name with
        | some spec => .ok (.option { spec, name, attached := some value })
        | none => guess
      | (_, none) => guess
where
  guess : Except Ambiguous Word :=
    match candidates specs word with
    | [use] => .ok (.option use)
    | [] =>
      if isNegativeNumber word || word.toList.contains ' ' then .ok (.plain word)
      else .ok (.unknown word)
    | _ => .error .ambiguous

/-- The words of a command line. -/
def words (specs : List OptionSpec) : List String → Except Ambiguous (List Word)
  | [] => .ok []
  | "--" :: rest => .ok (.divider :: rest.map .plain)
  | word :: rest => do return (← classify specs word) :: (← words specs rest)

end Untangle.CommandLine
