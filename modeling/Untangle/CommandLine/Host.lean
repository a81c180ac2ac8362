/-
  Untangle.CommandLine.Host

  What the commands need from where they run: files, two outputs and a clock. The
  commands are written over any host, so that they can be run on real files and on a
  store of files that is a value.
-/
import Untangle.Fault
import Untangle.Path

namespace Untangle.CommandLine

/-- Why a command stopped. -/
inductive Complaint where
  | badSettings (cause : Fault)
  | noSuchFile (path : Path)
  | unreadable (path : Path) (cause : Fault)

/-- The message about a complaint, given the wording of faults. -/
def Complaint.message (wording : Fault → String) : Complaint → String
  | .badSettings cause => "Invalid configuration: " ++ wording cause
  | .noSuchFile path => "No such file: " ++ path.text
  | .unreadable path cause => "Failed to read " ++ path.text ++ ": " ++ wording cause

/-- Where commands run. -/
structure Host (m : Type → Type) where
  read : Path → m (Except FileFault String)
  isFile : Path → m Bool
  /-- Makes a directory and those above it; that it is there already is no fault. -/
  makeDirectory : Path → m (Except FileFault Unit)
  write : Path → String → m (Except FileFault Unit)
  append : Path → String → m (Except FileFault Unit)
  /-- Prints a text and a line break. -/
  print : String → m Unit
  complain : Complaint → m Unit
  /-- Milliseconds since some moment. -/
  clock : m Nat
  /-- The time of day, as log lines start with it. -/
  timeOfDay : m String
  /-- Where the user's own settings are. -/
  home : Path

end Untangle.CommandLine
