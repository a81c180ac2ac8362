/-
  Untangle.Fault

  Why an operation of the library can fail, and the message for each cause.
-/
import Untangle.Arith.Evaluate
import Untangle.Issue

namespace Untangle

/-- What is wrong with a listing or with an encoded method. -/
inductive MalformedCause where
  | duplicateLabel (label : String)
  | undefinedLabel (label : String)
  | strayLabel (label : String)
  | regionFields
  | regionKindWord (word : String)
  | missingLiteral (mnemonic : String)
  | badConstant (mnemonic : String)
  | missingLocal (mnemonic : String)
  | missingType
  | targetCount (mnemonic : String)
  | badLiteral (text : String)
  | methodCount (found : Nat)
  | unknownOpcode (name : Value)
  | unknownOperation (name : Value)
  | badRegionKind (region : Value)
  | noInstructions
  | duplicateUids (method : Value)

/-- The message about a malformed listing or method. -/
def MalformedCause.message : MalformedCause → String
  | .duplicateLabel l => "duplicate label " ++ Text.quoted l
  | .undefinedLabel l => "undefined label " ++ Text.quoted l
  | .strayLabel l => "label " ++ Text.quoted l ++ " does not precede an instruction"
  | .regionFields =>
    ".try expects: try_start try_end kind handler_start handler_end [type]"
  | .regionKindWord w => "unknown region kind " ++ Text.quoted w
  | .missingLiteral m => m ++ " needs a literal"
  | .badConstant m => "bad constant form " ++ Text.quoted m
  | .missingLocal m => m ++ " needs a local"
  | .missingType => "sizeof needs a type"
  | .targetCount m => m ++ " needs exactly one target"
  | .badLiteral t => "bad literal " ++ Text.quoted t
  | .methodCount n => "expected one method, found " ++ toString n
  | .unknownOpcode v => "unknown opcode " ++ v.quoted
  | .unknownOperation v => "unknown arithmetic operation " ++ v.quoted
  | .badRegionKind v => "bad region kind in " ++ v.quoted
  | .noInstructions => "method body has no 'instructions'"
  | .duplicateUids v => "duplicate instruction uids in " ++ v.quoted

/-- What is wrong with the settings of a run. -/
inductive SettingCause where
  | badWidth (v : Value)
  | unknownOverflow (v : Value)
  | unknownAnalysis (v : Value)
  | tooFewWorkers (v : Value)
  | unknownStage (v : Value)
  | unknownKeys (keys : List Value)

/-- The message about unusable settings. -/
def SettingCause.message : SettingCause → String
  | .badWidth v =>
    let widths := Value.list (Width.all.map fun w => .int w.bytes)
    "int_width must be one of " ++ widths.quoted ++ ", got " ++ v.quoted
  | .unknownOverflow v => "Unknown overflow mode: " ++ v.quoted
  | .unknownAnalysis v => "Unknown analysis: " ++ v.quoted
  | .tooFewWorkers v => "workers must be >= 1, got " ++ v.display
  | .unknownStage v => "Unknown stage: " ++ v.quoted
  | .unknownKeys keys =>
    "Unknown configuration keys: " ++ (Value.list keys).quoted

/-- Why a file cannot be used. -/
inductive FileFault where
  /-- There is nothing of the name. -/
  | missing
  | isDirectory
  /-- The path leads through something that is no directory. -/
  | notDirectory
  /-- Something else stands where a directory is wanted. -/
  | occupied
  deriving Repr, DecidableEq

/-- The message about a file that cannot be used. -/
def FileFault.message : FileFault → String
  | .missing => "No such file or directory"
  | .isDirectory => "Is a directory"
  | .notDirectory => "Not a directory"
  | .occupied => "File exists"

/-- Why an operation failed. -/
inductive Fault where
  /-- A listing (at a line) or an encoded method is malformed. -/
  | malformed (line : Option Nat) (cause : MalformedCause)
  | setting (cause : SettingCause)
  | overflow (o : Overflow)
  /-- A method is structurally inconsistent. -/
  | inconsistent (issues : List Issue)
  | misuse (cause : Misuse)
  /-- A text is no JSON document. -/
  | badDocument
  | unknownLevel (name : String)
  | file (cause : FileFault)

/-- The message about a fault; none where the cause has no wording of its own. -/
def Fault.message? : Fault → Option String
  | .malformed (some n) cause => some ("line " ++ toString n ++ ": " ++ cause.message)
  | .malformed none cause => some cause.message
  | .setting cause => some cause.message
  | .overflow o => some o.message
  | .inconsistent issues => some (Issue.summary issues)
  | .unknownLevel name => some ("Unknown logging level: " ++ name)
  | .file cause => some cause.message
  | .badDocument => some "not a JSON document"
  | .misuse _ => none

/-- Uses the result of a conversion that can only be misused. -/
def Fault.lift {α : Type} : Except Misuse α → Except Fault α
  | .ok a => .ok a
  | .error m => .error (.misuse m)

instance : MonadLift (Except Misuse) (Except Fault) := ⟨Fault.lift⟩

end Untangle
