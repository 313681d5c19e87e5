/-
LuaLayout.CommandLine.Verdict — what a run prints and what it writes.

A run is decided from its arguments and the content of its input. It either
ends without touching a file, or writes one text to one place; nothing is
written before all that can be wrong with the arguments and the program is
known not to be.
-/
import LuaLayout.CommandLine.Invocation
import LuaLayout.CommandLine.Path
import LuaLayout.Format

namespace LuaLayout.CommandLine

/-! ## 1. What is read -/

/-- Every line end as a single line feed. A carriage return, alone or before a
line feed, is one. -/
def normaliseLineEnds : List Char → List Char
  | [] => []
  | '\r' :: '\n' :: rest => '\n' :: normaliseLineEnds rest
  | c :: rest => (if c == '\r' then '\n' else c) :: normaliseLineEnds rest

/-- The program in the bytes of a file: UTF-8, with line feeds at line ends. -/
def decode? (content : ByteArray) : Option String :=
  (String.fromUTF8? content).map fun s => String.ofList (normaliseLineEnds s.toList)

/-! ## 2. What is shown -/

/-- The exit status of a run and what it prints. -/
structure Transcript where
  code : Nat
  stdout : String
  stderr : String
  deriving DecidableEq, Repr

/-- What a verbose run tells of a program that is about to be laid out. -/
def log (version : Version) (p : Prepared) : String :=
  let kept := toString p.reduction.tokens.length
  "DEBUG lua_reducer: reduced " ++ toString p.rawTokens ++ " tokens to " ++ kept ++
    ", folded " ++ toString p.reduction.folded ++ " negative literals\n" ++
  "DEBUG lua_beautify: formatting " ++ kept ++ " tokens (lua version flag " ++
    toString version ++ ")\n"

/-! ## 3. What is done -/

/-- A text and the place it is written to. -/
structure Writing where
  path : String
  /-- The directory for results is made first, unless it is there. -/
  makesDirectory : Bool
  text : String
  deriving DecidableEq, Repr

/-- How a run ends. -/
inductive Verdict
  /-- Nothing is written. -/
  | stopped (transcript : Transcript)
  /-- The input is no text in UTF-8. -/
  | undecodable
  /-- One text is written, then the run ends well. -/
  | writes (writing : Writing) (transcript : Transcript)
  deriving DecidableEq, Repr

namespace Invocation

/-- Where the result of a run goes, and whether the directory for results is
used. -/
def destination (i : Invocation) : String × Bool :=
  if i.inPlace then (i.input, false)
  else match i.output with
    | some path => (path, false)
    | none => (Path.resultFor i.input, true)

/-- The end of a run whose program is at fault. -/
def stoppedBy (i : Invocation) (fault : Fault) (stderr : String) : Verdict :=
  .stopped ⟨1, i.input ++ ": " ++ fault.report.describe ++ "\n", stderr⟩

/-- The log of a run, empty unless it is asked for. -/
def logOf (i : Invocation) (p : Prepared) : String := if i.verbose then log i.version p else ""

/-- The end of a run whose result is known. -/
def success (i : Invocation) (text stderr : String) : Verdict :=
  let (path, makesDirectory) := i.destination
  .writes ⟨path, makesDirectory, text⟩ ⟨0, "✓ Formatted → " ++ path ++ "\n", stderr⟩

/-- The end of a run on a program. -/
def verdictOn (i : Invocation) (source : String) : Verdict :=
  match prepare i.version [source] with
  | .error fault => i.stoppedBy fault ""
  | .ok prepared =>
    match prepared.format with
    | .error fault => i.stoppedBy fault (i.logOf prepared)
    | .ok text => i.success text (i.logOf prepared)

/-- The end of a run, from the content of its input if that is a file. -/
def verdict (i : Invocation) : Option ByteArray → Verdict
  | none => .stopped ⟨1, "Error: '" ++ i.input ++ "' is not a valid file.\n", ""⟩
  | some content =>
    match decode? content with
    | none => .undecodable
    | some source => i.verdictOn source

end Invocation

/-- The end of a run with wrong arguments. -/
def Misuse.verdict (m : Misuse) : Verdict := .stopped ⟨1, m.message, ""⟩

end LuaLayout.CommandLine
