import Reduct.CommandLine

/-!
# The program

Reads the file that the command line names, carries out the command, writes what it gives and
exits with its status.
-/

namespace Reduct.CommandLine

/-- The reason why a file cannot be read. -/
def readFailure : IO.Error → String
  | .noFileOrDirectory .. => "No such file or directory (os error 2)"
  | .inappropriateType .. => "Is a directory (os error 21)"
  | .permissionDenied .. => "Permission denied (os error 13)"
  | other => toString other

/-- The contents of a file, or the reason why it cannot be read. -/
def readInput (path : String) : IO (Except String String) := do
  try
    return .ok (← IO.FS.readFile path)
  catch failure =>
    return .error (readFailure failure)

/-- Read the file of a command line, if it names one. -/
def readFiles (arguments : List String) : IO Files := do
  match Request.ofArguments arguments with
  | .error _ => return fun _ => .error ""
  | .ok request =>
    match request.path? with
    | none => return fun _ => .error ""
    | some path =>
      let contents ← readInput path
      return fun _ => contents

end Reduct.CommandLine

open Reduct

/-- Carry out the command line. -/
def main (arguments : List String) : IO UInt32 := do
  let files ← CommandLine.readFiles arguments
  let result := CommandLine.execute files arguments
  (← IO.getStdout).putStr result.output
  (← IO.getStderr).putStr result.errors
  return result.status.toUInt32
