/-
LuaLayout.CommandLine.Path — file names in text.

A path is steps with slashes between them. The result of formatting goes, if
nothing else is said, to a directory of its own, under the base name of the
input without its extension.
-/
namespace LuaLayout.CommandLine.Path

/-- The steps of a path: what stands between its slashes. -/
def steps : List Char → List (List Char)
  | [] => [[]]
  | c :: rest =>
    if c == '/' then [] :: steps rest
    else match steps rest with
      | [] => [[c]]
      | first :: later => (c :: first) :: later

/-- What stands after the last slash. -/
def baseName (path : List Char) : List Char :=
  (path.reverse.takeWhile (· != '/')).reverse

/-- A name without its extension: what the last dot begins, if something other
than a dot stands before it. -/
def withoutExtension (name : List Char) : List Char :=
  match name.reverse.dropWhile (· != '.') with
  | _ :: before => if before.any (· != '.') then before.reverse else name
  | [] => name

/-- The directory for results. -/
def resultDirectory : String := "formatted_scripts"

/-- Where the result for an input goes. -/
def resultFor (input : String) : String :=
  resultDirectory ++ "/" ++ String.ofList (withoutExtension (baseName input.toList)) ++ ".fmt.lua"

example : resultFor "d/a.b.lua" = "formatted_scripts/a.b.fmt.lua" := by decide

example : resultFor "..lua" = "formatted_scripts/..lua.fmt.lua" := by decide

end LuaLayout.CommandLine.Path
