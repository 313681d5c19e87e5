/-
LuaLayout.Lexeme.Numeral — the four forms of numbers.

A mantissa is digits with at most one point and at least one digit beside it.
Decimal numbers may carry an exponent after e, hexadecimal ones a binary
exponent after p; the exponent is decimal in both. An exponent without digits
is none at all: the number then ends before its mark.
-/
import LuaLayout.Text.CharClass
import LuaLayout.Lexeme.Basic

namespace LuaLayout.Lexeme

open Text

/-- Digits with an optional point and fraction, or a point and a fraction. -/
def mantissa? (isDigit : Char → Bool) (text : List Char) : Option Cut :=
  match text.takeWhile isDigit, text.dropWhile isDigit with
  | [], '.' :: rest => (run? isDigit rest).map (·.prepend ['.'])
  | [], _ => none
  | whole, '.' :: rest => some ((run isDigit rest).prepend (whole ++ ['.']))
  | whole, rest => some (whole, rest)

theorem mantissa?_of {isDigit : Char → Bool} {text : List Char} {c : Cut}
    (h : mantissa? isDigit text = some c) : c.Of text := by
  have hsplit := run_append isDigit text
  simp only [run] at hsplit
  unfold mantissa? at h
  split at h
  · next rest hw hr =>
    rw [hw, hr] at hsplit
    obtain ⟨d, hd, rfl⟩ := Option.map_eq_some_iff.1 h
    rw [← hsplit]
    exact Cut.of_prepend (by simp) (run?_of hd).2
  · cases h
  · next rest hr _ =>
    cases h
    rw [hr] at hsplit
    have hcut : Cut.Of ((run isDigit rest).prepend (text.takeWhile isDigit ++ ['.']))
        (text.takeWhile isDigit ++ ['.'] ++ rest) :=
      Cut.of_prepend (by simp) (run_append isDigit rest)
    rwa [List.append_assoc, List.singleton_append, hsplit] at hcut
  · next hne _ _ =>
    cases h
    exact ⟨hne, hsplit⟩

theorem mantissa?_isSome {isDigit : Char → Bool} {c : Char} (rest : List Char)
    (h : isDigit c = true) : (mantissa? isDigit (c :: rest)).isSome := by
  unfold mantissa?
  simp only [List.takeWhile_cons, h, if_true]
  split <;> simp_all

/-- A sign, if one stands here. -/
def sign : List Char → Cut
  | '+' :: rest => (['+'], rest)
  | '-' :: rest => (['-'], rest)
  | rest => ([], rest)

theorem sign_append (text : List Char) : (sign text).1 ++ (sign text).2 = text := by
  unfold sign
  split <;> rfl

/-- One of the marks, an optional sign and decimal digits. -/
def exponent? (marks : List Char) : List Char → Option Cut
  | mark :: rest =>
    if marks.contains mark then
      (run? isDecimalDigit (sign rest).2).map (·.prepend (mark :: (sign rest).1))
    else none
  | [] => none

theorem exponent?_of {marks text : List Char} {c : Cut} (h : exponent? marks text = some c) :
    c.Of text := by
  unfold exponent? at h
  split at h
  · next mark rest =>
    split at h
    · obtain ⟨d, hd, rfl⟩ := Option.map_eq_some_iff.1 h
      have hcut : Cut.Of (d.prepend (mark :: (sign rest).1))
          (mark :: (sign rest).1 ++ (sign rest).2) :=
        Cut.of_prepend (by simp) (run?_of hd).2
      rwa [List.cons_append, sign_append] at hcut
    · cases h
  · cases h

/-- A cut that goes on with an exponent. -/
def withExponent? (marks : List Char) (c : Cut) : Option Cut :=
  (exponent? marks c.2).map (·.prepend c.1)

theorem withExponent?_of {marks text : List Char} {c d : Cut} (hc : c.Of text)
    (h : withExponent? marks c = some d) : d.Of text := by
  obtain ⟨e, he, rfl⟩ := Option.map_eq_some_iff.1 h
  have hcut := Cut.of_prepend hc.1 (exponent?_of he).2
  rwa [hc.2] at hcut

/-- A decimal number without exponent. -/
def decimal? (text : List Char) : Option Cut := mantissa? isDecimalDigit text

theorem decimal?_of {text : List Char} {c : Cut} (h : decimal? text = some c) : c.Of text :=
  mantissa?_of h

/-- A decimal number with exponent. -/
def scientific? (text : List Char) : Option Cut :=
  (decimal? text).bind (withExponent? ['e', 'E'])

theorem scientific?_of {text : List Char} {c : Cut} (h : scientific? text = some c) :
    c.Of text := by
  obtain ⟨d, hd, he⟩ := Option.bind_eq_some_iff.1 h
  exact withExponent?_of (mantissa?_of hd) he

/-- A hexadecimal number without exponent. -/
def hexadecimal? : List Char → Option Cut
  | '0' :: x :: rest =>
    if x == 'x' || x == 'X' then (mantissa? isHexDigit rest).map (·.prepend ['0', x]) else none
  | _ => none

theorem hexadecimal?_of {text : List Char} {c : Cut} (h : hexadecimal? text = some c) :
    c.Of text := by
  unfold hexadecimal? at h
  split at h
  · next x rest =>
    split at h
    · obtain ⟨d, hd, rfl⟩ := Option.map_eq_some_iff.1 h
      exact Cut.of_prepend (by simp) (mantissa?_of hd).2
    · cases h
  · cases h

/-- A hexadecimal number with binary exponent. -/
def scientificHex? (text : List Char) : Option Cut :=
  (hexadecimal? text).bind (withExponent? ['p', 'P'])

theorem scientificHex?_of {text : List Char} {c : Cut} (h : scientificHex? text = some c) :
    c.Of text := by
  obtain ⟨d, hd, he⟩ := Option.bind_eq_some_iff.1 h
  exact withExponent?_of (hexadecimal?_of hd) he

end LuaLayout.Lexeme
