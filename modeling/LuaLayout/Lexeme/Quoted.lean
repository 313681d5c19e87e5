/-
LuaLayout.Lexeme.Quoted — strings between quotes.

A string ends at the next quote of its own kind that is not escaped: the run of
backslashes right before it is even. An escaped quote is part of the string,
and so is a line end.
-/
import LuaLayout.Lexeme.Basic

namespace LuaLayout.Lexeme

/-- The number of backslashes at the end of a text that is given last character
first. -/
def backslashesBefore (seen : List Char) : Nat := (seen.takeWhile (· == '\\')).length

/-- The cut after the first unescaped quote. The characters already passed come
last first. -/
def closeQuote? (quote : Char) (seen : List Char) : List Char → Option Cut
  | [] => none
  | c :: rest =>
    if c == quote && backslashesBefore seen % 2 == 0 then some ((c :: seen).reverse, rest)
    else closeQuote? quote (c :: seen) rest

theorem closeQuote?_append {quote : Char} {seen text : List Char} {c : Cut}
    (h : closeQuote? quote seen text = some c) : c.1 ++ c.2 = seen.reverse ++ text := by
  induction text generalizing seen with
  | nil => cases h
  | cons d rest ih =>
    unfold closeQuote? at h
    split at h
    · cases h; simp
    · simpa using ih h

/-- A string between two quotes of one kind. -/
def quoted (quote : Char) : Reader
  | [] => none
  | c :: rest =>
    if c == quote then
      match closeQuote? quote [] rest with
      | some cut => some (.ofCut (cut.prepend [quote]))
      | none => some .unfinished
    else none

theorem quoted_of {quote : Char} {text : List Char} {r : Reading}
    (h : quoted quote text = some r) : r.Of text := by
  unfold quoted at h
  split at h
  · cases h
  · next d rest =>
    split at h
    · next hd =>
      split at h
      · next c hc =>
        cases h
        rw [eq_of_beq hd]
        exact Cut.of_prepend (by simp) (by simpa using closeQuote?_append hc)
      · cases h; trivial
    · cases h

theorem quoted_isSome (quote : Char) (rest : List Char) :
    (quoted quote (quote :: rest)).isSome := by
  simp only [quoted, beq_self_eq_true, if_true]
  split <;> rfl

end LuaLayout.Lexeme
