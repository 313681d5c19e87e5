/-
LuaLayout.CommandLine.Disk — a run on a disk.

A disk is a finite map from locations to contents, with a working directory. A
location is the list of names on the way from the root; the beginnings of the
locations of files are directories, and so are those of the working directory
and of the directories that are there without files. Text paths are resolved
step by step, from the root if they begin with a slash and from the working
directory if not: one dot stays, two dots go up, from the root to itself, and
every step but the last must lead to a directory. A text that is empty or holds a
NUL is no path.

What a run gives away is assumed to be taken. A file that could be opened takes
the whole text, and the standard output takes every line, the marks outside ASCII
in the last one included, which is printed once the text is in its file. So what
can go wrong lies in the arguments, the input and the place of the result.
-/
import LuaLayout.CommandLine.Verdict

namespace LuaLayout.CommandLine

/-! ## 1. Disks -/

/-- A place on a disk, as the names on the way to it. -/
abbrev Location := List (List Char)

/-- Files and directories, and the directory that a run starts in. -/
structure Disk where
  files : List (Location × ByteArray)
  /-- Directories that are there whether or not files lie below them. -/
  directories : List Location
  working : Location

/-- What a location holds. -/
inductive Entry
  | missing
  | directory
  | file (content : ByteArray)

/-- Why a file cannot be used. -/
inductive AccessError
  /-- Nothing is there, or the text is no path. -/
  | notFound
  | isDirectory
  | notDirectory
  | alreadyThere
  | undecodable
  deriving DecidableEq, Repr

namespace Disk

/-- The directories that a system has in any case. -/
def systemDirectories : List Location :=
  ["bin", "boot", "dev", "etc", "home", "lib", "media", "mnt", "opt", "proc", "root", "run",
   "sbin", "srv", "sys", "tmp", "usr/bin", "usr/lib", "usr/local", "usr/sbin", "usr/share",
   "var/cache", "var/lib", "var/log", "var/tmp"].map fun path => Path.steps path.toList

/-- A working directory of its own, among the temporary ones. -/
def freshDirectory : Location := Path.steps "tmp/lua-layout-work".toList

/-- The disk of a system with nothing on it but the given files, in a fresh
working directory. Their locations are given from there. -/
def ofFiles (files : List (Location × ByteArray)) : Disk where
  files := files.map fun (location, content) => (freshDirectory ++ location, content)
  directories := systemDirectories
  working := freshDirectory

/-- The files below the working directory, with their locations from there. -/
def workingFiles (d : Disk) : List (Location × ByteArray) :=
  d.files.filterMap fun (location, content) =>
    if d.working.isPrefixOf location then some (location.drop d.working.length, content) else none

/-- Something on the disk lies at the location or below it. -/
def isOccupied (d : Disk) (location : Location) : Bool :=
  location.isPrefixOf d.working || d.directories.any (location.isPrefixOf ·) ||
    d.files.any fun (path, _) => location.isPrefixOf path

/-- What a location holds: a file, or a directory if anything else is there. -/
def entry (d : Disk) (location : Location) : Entry :=
  match d.files.lookup location with
  | some content => .file content
  | none => if d.isOccupied location then .directory else .missing

/-- The disk with a file put at a location, in place of the one it held. -/
def write (d : Disk) (location : Location) (content : ByteArray) : Disk :=
  { d with files := (location, content) :: d.files.filter (·.1 != location) }

/-! ## 2. Resolving paths -/

/-- Where one step from a directory leads. -/
def stepTo (directory : Location) (step : List Char) : Location :=
  if step.isEmpty || step == ['.'] then directory
  else if step == ['.', '.'] then directory.dropLast
  else directory ++ [step]

/-- The location must be a directory. -/
def requireDirectory (d : Disk) (location : Location) : Except AccessError Location :=
  match d.entry location with
  | .directory => .ok location
  | .missing => .error .notFound
  | .file _ => .error .notDirectory

/-- The directory that steps lead to. -/
def walk (d : Disk) (directory : Location) : List (List Char) → Except AccessError Location
  | [] => .ok directory
  | step :: rest => do
    let next ← d.requireDirectory (stepTo directory step)
    d.walk next rest

/-- Where a text path leads: a name in a directory that is there. -/
structure Place where
  directory : Location
  name : List Char
  /-- The name can only be that of a directory: a slash follows it, or it
  consists of the one or two dots that lead to one. -/
  isDirectoryName : Bool

namespace Place

/-- The location of the name. -/
def location (p : Place) : Location := p.directory ++ [p.name]

end Place

/-- Where the steps of a text path start. -/
def origin (d : Disk) (path : List Char) : Location :=
  if path.head? == some '/' then [] else d.working

/-- The place that a text path leads to. An empty one leads nowhere, and so does
one with a NUL in it, where the paths of a system end. -/
def resolve (d : Disk) (path : String) : Except AccessError Place := do
  if path.isEmpty || path.toList.contains '\x00' then throw .notFound
  let steps := Path.steps path.toList
  let named := (steps.reverse.dropWhile (·.isEmpty)).reverse
  let name := named.getLastD []
  return ⟨← d.walk (d.origin path.toList) named.dropLast, name,
    named.length != steps.length || name == ['.'] || name == ['.', '.']⟩

/-- The content of a file, if the path leads to one. -/
def read? (d : Disk) (path : String) : Option ByteArray :=
  match d.resolve path with
  | .error _ => none
  | .ok place =>
    if place.isDirectoryName then none
    else match d.entry place.location with
      | .file content => some content
      | _ => none

/-- Where a text path leads for writing: to a file, or to a free name. -/
def target (d : Disk) (path : String) : Except AccessError Location := do
  let place ← d.resolve path
  if place.isDirectoryName then throw .isDirectory
  else match d.entry place.location with
    | .directory => throw .isDirectory
    | _ => return place.location

/-! ## 3. Runs -/

/-- The location of the directory for results. -/
def resultDirectory (d : Disk) : Location := d.working ++ [Path.resultDirectory.toList]

/-- Where a writing goes. A directory that is made first may not be a file, and
is there once it is made. -/
def targetOf (d : Disk) (w : Writing) : Except AccessError Location :=
  if w.makesDirectory then
    match d.entry d.resultDirectory with
    | .file _ => .error .alreadyThere
    | .directory => d.target w.path
    | .missing => .ok (d.working ++ Path.steps w.path.toList)
  else d.target w.path

/-- Carries out a verdict. The file that is opened is assumed to take the text, and
the standard output to take what the transcript shows: nothing fails once the place
of the text is known. -/
def carryOut (d : Disk) : Verdict → Except AccessError Transcript × Disk
  | .stopped transcript => (.ok transcript, d)
  | .undecodable => (.error .undecodable, d)
  | .writes writing transcript =>
    match d.targetOf writing with
    | .ok location => (.ok transcript, d.write location writing.text.toUTF8)
    | .error e => (.error e, d)

/-- The verdict on arguments. -/
def verdict (d : Disk) (arguments : List String) : Verdict :=
  match Invocation.ofArguments arguments with
  | .error misuse => misuse.verdict
  | .ok invocation => invocation.verdict (d.read? invocation.input)

/-- A run with the given arguments: what it shows, and the files after it, where
the file that is opened and the standard output take what they are given. -/
def run (d : Disk) (arguments : List String) : Except AccessError Transcript × Disk :=
  d.carryOut (d.verdict arguments)

end Disk

end LuaLayout.CommandLine
