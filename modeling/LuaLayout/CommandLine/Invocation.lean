/-
LuaLayout.CommandLine.Invocation — what the arguments ask for.

The first argument names the input and must not look like an option. Options
follow, read from left to right; a later one wins over an earlier one of the
same name, and the first that is wrong decides the message.
-/
import LuaLayout.Text.Integer
import LuaLayout.Vocabulary

namespace LuaLayout.CommandLine

/-- What to format and where to put it. -/
structure Invocation where
  input : String
  output : Option String
  version : Version
  inPlace : Bool
  verbose : Bool
  deriving DecidableEq, Repr

/-- How arguments can be wrong. -/
inductive Misuse
  | noInput
  | unknownOption (argument : String)
  | invalidValue (option : String)
  deriving DecidableEq, Repr

/-- How the program is called. -/
def usage : String :=
  "Usage: lua-beautify <file.lua> [-o OUT] [--lua-version N] [--in-place] [--verbose]\n" ++
  "  -o OUT: write the result to OUT (default: formatted_scripts/<name>.fmt.lua)\n" ++
  "  --lua-version N: 1 = base grammar, 2 = goto, 3 = bitwise operators (default: 1)\n" ++
  "  --in-place: overwrite the input file\n"

namespace Misuse

/-- What is printed of a misuse. -/
def message : Misuse → String
  | noInput => usage
  | unknownOption argument => "Unknown option '" ++ argument ++ "'\n" ++ usage
  | invalidValue option => "Invalid " ++ option ++ " argument\n"

end Misuse

namespace Invocation

/-- An input without options. -/
def ofInput (input : String) : Invocation := ⟨input, none, Version.base, false, false⟩

/-- The invocation with options added, the first one first. -/
def withOptions (i : Invocation) : List String → Except Misuse Invocation
  | [] => .ok i
  | "--in-place" :: rest => { i with inPlace := true }.withOptions rest
  | "--verbose" :: rest => { i with verbose := true }.withOptions rest
  | ["-o"] => .error (.invalidValue "-o")
  | "-o" :: path :: rest => { i with output := some path }.withOptions rest
  | ["--lua-version"] => .error (.invalidValue "--lua-version")
  | "--lua-version" :: number :: rest =>
    match Text.Integer.read? number.toList with
    | some version => { i with version := version }.withOptions rest
    | none => .error (.invalidValue "--lua-version")
  | argument :: _ => .error (.unknownOption argument)

/-- The argument looks like an option. -/
def isOption (argument : String) : Bool := argument.toList.head? == some '-'

/-- The invocation that arguments stand for. -/
def ofArguments : List String → Except Misuse Invocation
  | [] => .error .noInput
  | input :: rest =>
    if isOption input then .error .noInput else (ofInput input).withOptions rest

end Invocation

end LuaLayout.CommandLine
