/-
# The command line

Reads the file that the arguments name, runs the dump command on it and writes
what the command says.
-/
import CssReader.Dump

namespace CssReader
namespace Dump

/-- A reason in the system's words, with its number; the number may be given
with the opposite sign. -/
def systemReason (code : UInt32) (details : String) : String :=
  let number := if code.toNat < UInt32.size / 2 then code.toNat else UInt32.size - code.toNat
  s!"{details.capitalize} (os error {number})"

/-- The reason why a file cannot be read. -/
def reasonOf : IO.Error → String
  | .noFileOrDirectory _ code details | .permissionDenied _ code details
  | .inappropriateType _ code details | .invalidArgument _ code details =>
    systemReason code details
  | e => toString e

end Dump
end CssReader

open CssReader in
/-- Runs the dump command on the arguments of the command line. -/
def main (args : List String) : IO UInt32 := do
  let bytes : Except String ByteArray ← match Dump.Request.ofArgs? args with
    | none => pure (.error "")
    | some request =>
      try
        pure (.ok (← IO.FS.readBinFile request.path))
      catch e =>
        pure (.error (Dump.reasonOf e))
  let exit := Dump.run args fun _ => bytes
  (← IO.getStdout).putStr exit.stdout
  (← IO.getStderr).putStr exit.stderr
  return exit.code
