/-
LuaLayout.Lexeme.Word — names, symbols and the plain runs between them.
-/
import LuaLayout.Vocabulary
import LuaLayout.Text.CharClass
import LuaLayout.Lexeme.Basic

namespace LuaLayout.Lexeme

open Text

/-- A name: a letter or underscore, then letters, digits and underscores. -/
def name? : List Char → Option Cut
  | c :: rest => if isNameStart c then some ((run isNamePart rest).prepend [c]) else none
  | [] => none

theorem name?_of {text : List Char} {c : Cut} (h : name? text = some c) : c.Of text := by
  unfold name? at h
  split at h
  · next d rest =>
    split at h
    · cases h
      exact Cut.of_prepend (by simp) (run_append _ rest)
    · cases h
  · cases h

theorem name?_isSome {c : Char} (rest : List Char) (h : isNameStart c = true) :
    (name? (c :: rest)).isSome := by
  simp [name?, h]

/-- White space, as far as it goes. -/
def whitespace? (text : List Char) : Option Cut := run? isBlank text

theorem whitespace?_of {text : List Char} {c : Cut} (h : whitespace? text = some c) : c.Of text :=
  run?_of h

/-- A character that ends a line comment. -/
def isLineEnd (c : Char) : Bool := c == '\r' || c == '\n'

/-- Two dashes and the rest of the line. -/
def lineComment? : List Char → Option Cut
  | '-' :: '-' :: rest => some ((run (!isLineEnd ·) rest).prepend ['-', '-'])
  | _ => none

theorem lineComment?_of {text : List Char} {c : Cut} (h : lineComment? text = some c) :
    c.Of text := by
  unfold lineComment? at h
  split at h
  · next rest =>
    cases h
    exact Cut.of_prepend (by simp) (run_append _ rest)
  · cases h

/-- The first characters, as many as given, when they form an operator. -/
def operatorOf? (text : List Char) (length : Nat) : Option Cut :=
  if Vocabulary.allOperators.contains (String.ofList (text.take length)) then
    some (text.take length, text.drop length)
  else none

theorem operatorOf?_of {text : List Char} {n : Nat} {c : Cut} (h : operatorOf? text n = some c) :
    c.Of text := by
  unfold operatorOf? at h
  split at h
  · next hmem =>
    cases h
    refine ⟨fun hnil => ?_, by simp⟩
    simp only at hnil
    rw [hnil] at hmem
    exact absurd hmem (by decide)
  · cases h

/-- The longest operator that the text begins with; none is longer than three
characters. -/
def operator? (text : List Char) : Option Cut := [3, 2, 1].findSome? (operatorOf? text)

theorem operator?_of {text : List Char} {c : Cut} (h : operator? text = some c) : c.Of text := by
  obtain ⟨n, -, hn⟩ := List.exists_of_findSome?_eq_some h
  exact operatorOf?_of hn

/-- Every operator character is an operator by itself. -/
theorem allOperators_of_char : Vocabulary.operatorChars.toList.all
    (fun c => Vocabulary.allOperators.contains (String.ofList [c])) = true := by decide +kernel

theorem operator?_isSome {c : Char} (rest : List Char) (h : Vocabulary.isOperatorChar c = true) :
    (operator? (c :: rest)).isSome := by
  rw [operator?, List.findSome?_isSome_iff]
  refine ⟨1, by simp, ?_⟩
  have := List.all_eq_true.mp allOperators_of_char c (by simpa [Vocabulary.isOperatorChar] using h)
  simp only [operatorOf?, List.take_succ_cons, List.take_zero, this, if_true, Option.isSome_some]

/-- A character that no other class begins with or goes on with. -/
def isStray (c : Char) : Bool :=
  !(isNamePart c || isBlank c || c == '"' || c == '\'' || Vocabulary.isOperatorChar c)

/-- A run of stray characters. -/
def stray? (text : List Char) : Option Cut := run? isStray text

theorem stray?_of {text : List Char} {c : Cut} (h : stray? text = some c) : c.Of text := run?_of h

end LuaLayout.Lexeme
