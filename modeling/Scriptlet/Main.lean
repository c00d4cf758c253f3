import Scriptlet.CommandLine

/-! # The program

Reads the file that the arguments name and prints the report.
-/

namespace Scriptlet

/-- The message and the number of an error, as the operating system gives them. -/
def reasonOf : IO.Error → String
  | .permissionDenied _ code details | .inappropriateType _ code details
  | .resourceExhausted _ code details | .invalidArgument _ code details =>
      numbered code details
  | .hardwareFault code details | .unsupportedOperation code details
  | .resourceBusy code details | .otherError code details =>
      numbered code details
  | e => toString e
where
  numbered (code : UInt32) (details : String) : String :=
    details ++ " (os error " ++ toString code ++ ")"

/-- A file that has no place in the file system is missing; any other may still refuse
    to be read. -/
def readFile (path : String) : IO (Except FileError ByteArray) := do
  try
    discard <| IO.FS.realPath path
  catch _ =>
    return .error .missing
  try
    return .ok (← IO.FS.readBinFile path)
  catch e =>
    return .error (.unreadable (reasonOf e))

def Line.print (line : Line) : IO Unit :=
  match line.channel with
  | .out => IO.println line.text
  | .err => IO.eprintln line.text

end Scriptlet

open Scriptlet in
def main (args : List String) : IO UInt32 := do
  let surroundings : Surroundings :=
    { terminal := ← (← IO.getStdout).isTty
      noColor := ← IO.getEnv "NO_COLOR" }
  let report ← CommandLine.respond surroundings readFile args
  report.lines.forM (·.print)
  return report.exitCode
