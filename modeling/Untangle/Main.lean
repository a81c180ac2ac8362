/-
  Untangle.Main

  The command line on real files.
-/
import Std.Time.Format
import Untangle.CommandLine.Run

namespace Untangle.CommandLine

/-- What an error of the system says about a file. -/
def faultOfError : IO.Error → FileFault
  | .noFileOrDirectory .. => .missing
  | .inappropriateType .. => .notDirectory
  | .alreadyExists .. => .occupied
  | _ => .isDirectory

/-- Tries an operation on files. -/
def tryFiles {α : Type} (action : IO α) : IO (Except FileFault α) := do
  try
    return .ok (← action)
  catch e => return .error (faultOfError e)

/-- The host on the files of the system. -/
def systemHost (home : String) : Host IO where
  read path := tryFiles (IO.FS.readFile path.text)
  isFile path := do return (← tryFiles (IO.FS.readFile path.text)).isOk
  makeDirectory path := tryFiles (IO.FS.createDirAll path.text)
  write path text := tryFiles (IO.FS.writeFile path.text text)
  append path text := tryFiles do
    (← IO.FS.Handle.mk path.text .append).putStr text
  print text := IO.println text
  complain c := IO.eprintln (c.message fun f => (f.message?).getD "")
  clock := IO.monoMsNow
  timeOfDay := do
    return (← Std.Time.PlainDateTime.now).format "uuuu-MM-dd HH:mm:ss,SSS"
  home := Path.ofText home

/-- How the command line is used. -/
def usageText : String :=
  "usage: cfex normalize INPUT [-o OUTPUT] [--config FILE] [--workers N] [--log-dir DIR]\n"
    ++ "                      [--text] [--only-with-dispatch] [--json] [--log-level LEVEL]\n"
    ++ "       cfex stages\n"
    ++ "       cfex loggers [SCOPE]"

/-- The directory of the user's own settings. -/
def userDirectory : IO String := do
  match ← IO.getEnv "CFEX_HOME" with
  | some dir => if dir.isEmpty then fallback else return dir
  | none => fallback
where
  fallback : IO String := do
    return ((← IO.getEnv "HOME").getD "") ++ "/.cfex"

end Untangle.CommandLine

open Untangle.CommandLine in
/-- Runs the command line. -/
def main (args : List String) : IO UInt32 := do
  match readFrom args with
  | .error usage =>
    if usage == .help then IO.println usageText else IO.eprintln usageText
    return usage.status.toUInt32
  | .ok command =>
    match ← (run (systemHost (← userDirectory)) command).run with
    | .ok status => return status.toUInt32
    | .error cause =>
      IO.eprintln ("error: " ++ (cause.message?).getD "unusable value")
      return 1
