/-
LuaLayout.Main — the command line program.

All that is decided is decided in the verdict; here files are read and written,
and the transcript is shown.
-/
import LuaLayout.CommandLine.Verdict

namespace LuaLayout

open CommandLine

/-- The content of a file, if there is one that can be read. -/
def contentOf? (path : String) : IO (Option ByteArray) :=
  try some <$> IO.FS.readBinFile path catch _ => return none

/-- Shows what a run prints and gives its exit status. -/
def present (t : Transcript) : IO UInt32 := do
  IO.print t.stdout
  IO.eprint t.stderr
  return t.code.toUInt32

/-- Carries out a verdict. -/
def carryOut : Verdict → IO UInt32
  | .stopped transcript => present transcript
  | .undecodable => do
    IO.eprintln "the input is not UTF-8"
    return 1
  | .writes writing transcript => do
    if writing.makesDirectory then IO.FS.createDirAll Path.resultDirectory
    IO.FS.writeFile writing.path writing.text
    present transcript

end LuaLayout

/-- Formats the file that the arguments name. -/
def main (arguments : List String) : IO UInt32 := do
  match LuaLayout.CommandLine.Invocation.ofArguments arguments with
  | .error misuse => LuaLayout.carryOut misuse.verdict
  | .ok invocation =>
    LuaLayout.carryOut (invocation.verdict (← LuaLayout.contentOf? invocation.input))
