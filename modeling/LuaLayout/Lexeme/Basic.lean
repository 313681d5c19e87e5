/-
LuaLayout.Lexeme.Basic — what a lexical class says of the text before it.

A class looks at the remaining characters. It may not apply, it may recognise
its opening without finding an end, or it cuts the text into a lexeme and the
characters after it. Cuts are made by runs: the longest first part whose
characters all belong to a set.
-/
namespace LuaLayout.Lexeme

/-- A text cut in two: what was taken and what is left. -/
abbrev Cut := List Char × List Char

namespace Cut

/-- The cut with more characters in front of what was taken. -/
def prepend (front : List Char) (c : Cut) : Cut := (front ++ c.1, c.2)

/-- The cut takes something and loses nothing. -/
def Of (c : Cut) (text : List Char) : Prop := c.1 ≠ [] ∧ c.1 ++ c.2 = text

theorem of_prepend {front : List Char} {c : Cut} {rest : List Char} (hf : front ≠ [])
    (h : c.1 ++ c.2 = rest) : (c.prepend front).Of (front ++ rest) :=
  ⟨by simp [prepend, hf], by simp [prepend, h]⟩

end Cut

/-- The longest run of characters of a set; it may be empty. -/
def run (p : Char → Bool) (text : List Char) : Cut := (text.takeWhile p, text.dropWhile p)

theorem run_append (p : Char → Bool) (text : List Char) : (run p text).1 ++ (run p text).2 = text :=
  List.takeWhile_append_dropWhile

/-- The longest run of characters of a set, if there is one. -/
def run? (p : Char → Bool) (text : List Char) : Option Cut :=
  if (text.takeWhile p).isEmpty then none else some (run p text)

theorem run?_of {p : Char → Bool} {text : List Char} {c : Cut} (h : run? p text = some c) :
    c.Of text := by
  unfold run? at h
  split at h
  · cases h
  · next hne =>
    cases h
    exact ⟨by simpa [run] using hne, run_append p text⟩

theorem run?_isSome {p : Char → Bool} {c : Char} (rest : List Char) (h : p c = true) :
    (run? p (c :: rest)).isSome := by
  simp [run?, h]

/-- What a class finds where it applies. -/
inductive Reading
  /-- The opening of the class stands here, its end nowhere. -/
  | unfinished
  /-- The first characters form a lexeme of the class. -/
  | found (body rest : List Char)
  deriving DecidableEq, Repr

namespace Reading

/-- The reading that a cut stands for. -/
def ofCut (c : Cut) : Reading := found c.1 c.2

/-- The reading with more characters in front of its lexeme. -/
def prepend (front : List Char) : Reading → Reading
  | unfinished => unfinished
  | found body rest => found (front ++ body) rest

/-- A lexeme that is found takes something and loses nothing. -/
def Of (r : Reading) (text : List Char) : Prop :=
  match r with
  | unfinished => True
  | found body rest => Cut.Of (body, rest) text

end Reading

/-- A lexical class: its answer for the remaining characters, if it applies. -/
abbrev Reader := List Char → Option Reading

end LuaLayout.Lexeme
