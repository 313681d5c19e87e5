/-
LuaLayout.Proofs.Lexing.Lexemes — what a lexeme is.

`IsLexeme` says of a kind and some characters that they are a lexeme of the
kind, without a word about the text around. Every lexeme that is cut off is one.
Only a line comment owes something to the order of the classes: it does not go
on with the opener of a long bracket, or it would have been a long comment.
-/
import LuaLayout.Proofs.Lexing.Brackets
import LuaLayout.Proofs.Lexing.Numerals

namespace LuaLayout.Lexeme

open Text

/-! ## 1. Lexemes -/

/-- The two marks of hexadecimal numbers. -/
def hexMarks : List Char := ['x', 'X']

/-- The characters are a lexeme of the kind. -/
def IsLexeme : TokenKind → List Char → Prop
  | .name, b => ∃ d rest, b = d :: rest ∧ isNameStart d = true ∧ ∀ x ∈ rest, isNamePart x = true
  | .sciHexNumber, b => ∃ x m e, b = '0' :: x :: (m ++ e) ∧ x ∈ hexMarks ∧
      IsMantissa isHexDigit m ∧ IsExponent ['p', 'P'] e
  | .hexNumber, b => ∃ x m, b = '0' :: x :: m ∧ x ∈ hexMarks ∧ IsMantissa isHexDigit m
  | .sciNumber, b => ∃ m e, b = m ++ e ∧ IsMantissa isDecimalDigit m ∧ IsExponent ['e', 'E'] e
  | .number, b => IsMantissa isDecimalDigit b
  | .blockComment, b => ∃ body, b = '-' :: '-' :: body ∧ IsLong body
  | .lineComment, b => ∃ body, b = '-' :: '-' :: body ∧ (∀ x ∈ body, isLineEnd x = false) ∧
      longOpener? body = none
  | .blockQuote, b => IsLong b
  | .doubleQuoted, b => IsQuoted '"' b
  | .singleQuoted, b => IsQuoted '\'' b
  | .operator, b => Vocabulary.allOperators.contains (String.ofList b) = true
  | .whitespace, b => b ≠ [] ∧ ∀ x ∈ b, isBlank x = true
  | .invalid, b => b ≠ [] ∧ ∀ x ∈ b, isStray x = true
  | _, _ => False

/-- The characters of every operator. -/
def symbols : List (List Char) :=
  [['+'], ['-'], ['*'], ['/'], ['%'], ['^'], ['#'], ['=', '='], ['~', '='], ['<', '='],
    ['>', '='], ['<'], ['>'], ['='], ['('], [')'], ['\x7b'], ['\x7d'], ['['], [']'], [':', ':'],
    [';'], [':'], [','], ['.'], ['.', '.'], ['&'], ['~'], ['|'], ['<', '<'], ['>', '>'],
    ['/', '/'], ['.', '.', '.']]

theorem allOperators_eq : Vocabulary.allOperators = symbols.map String.ofList := rfl

theorem mem_allOperators {text : String} :
    text ∈ Vocabulary.allOperators ↔ text.toList ∈ symbols := by
  rw [allOperators_eq, List.mem_map]
  constructor
  · rintro ⟨b, hb, rfl⟩
    rwa [String.toList_ofList]
  · exact fun h => ⟨text.toList, h, String.ofList_toList⟩

theorem isLexeme_operator {b : List Char} : IsLexeme .operator b ↔ b ∈ symbols := by
  rw [IsLexeme, List.contains_iff_mem, mem_allOperators, String.toList_ofList]

/-- The class that applies gives the reading. -/
theorem class_of_first? {text : List Char} {kind : TokenKind} {r : Reading}
    (h : first? text = some (kind, r)) : ∃ read, (kind, read) ∈ classes ∧ read text = some r := by
  obtain ⟨⟨kind', read⟩, hmem, hread⟩ := List.exists_of_findSome?_eq_some h
  obtain ⟨r', hr', hp⟩ := Option.map_eq_some_iff.1 hread
  cases hp
  exact ⟨read, hmem, hr'⟩

theorem found_of_closed {cut? : List Char → Option Cut} {text b r : List Char}
    (h : closed cut? text = some (.found b r)) : cut? text = some (b, r) := by
  obtain ⟨⟨x, y⟩, hc, heq⟩ := Option.map_eq_some_iff.1 h
  cases heq
  exact hc

theorem isLexeme_hexadecimal {text b r : List Char} (h : hexadecimal? text = some (b, r)) :
    IsLexeme .hexNumber b := by
  unfold hexadecimal? at h
  split at h
  · next x rest =>
    split at h
    · next hx =>
      obtain ⟨⟨m, r'⟩, hm, heq⟩ := Option.map_eq_some_iff.1 h
      cases heq
      exact ⟨x, m, rfl, by simpa [hexMarks] using hx, isMantissa_of hm⟩
    · cases h
  · cases h

/-- What is cut off with an exponent is what was cut off before it, and the exponent. -/
theorem withExponent?_split {marks : List Char} {c d : Cut} (h : withExponent? marks c = some d) :
    ∃ e, d.1 = c.1 ++ e ∧ IsExponent marks e := by
  obtain ⟨⟨e, r⟩, he, rfl⟩ := Option.map_eq_some_iff.1 h
  exact ⟨e, rfl, isExponent_of he⟩

theorem isLexeme_lineComment {text b r : List Char} (hlong : longComment text = none)
    (h : lineComment? text = some (b, r)) : IsLexeme .lineComment b := by
  unfold lineComment? at h
  split at h
  · next rest =>
    cases h
    have hrun := run_append (!isLineEnd ·) rest
    simp only [run] at hrun
    refine ⟨_, rfl, fun x hx => ?_, ?_⟩
    · simpa using List.all_eq_true.1 List.all_takeWhile x hx
    · -- An opener in the comment would have opened a long one.
      simp only [longComment, longString, Option.map_eq_none_iff] at hlong
      cases ho : longOpener? (rest.takeWhile (!isLineEnd ·)) with
      | none => exact ho
      | some p =>
        have hright := longOpener?_append_right (rest.dropWhile (!isLineEnd ·)) ho
        rw [hrun, hlong] at hright
        cases hright
  · cases h

/-- An earlier class that applies decides, so it did not if a later one did. -/
theorem longComment_eq_none {text : List Char} {r : Reading}
    (h : first? text = some (.lineComment, r)) : longComment text = none := by
  cases hc : longComment text with
  | none => rfl
  | some s =>
    -- Up to the long comment, no class gives a line comment.
    simp only [first?, classes, List.findSome?, hc, Option.map_some] at h
    repeat' split at h
    all_goals simp_all

/-- Whatever is cut off is a lexeme. -/
theorem isLexeme_of_first? {text b r : List Char} {kind : TokenKind}
    (h : first? text = some (kind, .found b r)) : IsLexeme kind b := by
  obtain ⟨read, hmem, hread⟩ := class_of_first? h
  simp only [classes, List.mem_cons, Prod.mk.injEq, List.not_mem_nil, or_false] at hmem
  rcases hmem with ⟨rfl, rfl⟩ | ⟨rfl, rfl⟩ | ⟨rfl, rfl⟩ | ⟨rfl, rfl⟩ | ⟨rfl, rfl⟩ | ⟨rfl, rfl⟩ |
    ⟨rfl, rfl⟩ | ⟨rfl, rfl⟩ | ⟨rfl, rfl⟩ | ⟨rfl, rfl⟩ | ⟨rfl, rfl⟩ | ⟨rfl, rfl⟩ | ⟨rfl, rfl⟩
  · have hname := found_of_closed hread
    unfold name? at hname
    split at hname
    · next d rest =>
      split at hname
      · next hd =>
        cases hname
        exact ⟨d, _, rfl, hd, fun x hx => List.all_eq_true.1 List.all_takeWhile x hx⟩
      · cases hname
    · cases hname
  · obtain ⟨⟨m, r'⟩, hm, he⟩ := Option.bind_eq_some_iff.1 (found_of_closed hread)
    obtain ⟨x, m', rfl, hx, hm'⟩ := isLexeme_hexadecimal hm
    obtain ⟨e, rfl, he'⟩ := withExponent?_split he
    exact ⟨x, m', e, rfl, hx, hm', he'⟩
  · exact isLexeme_hexadecimal (found_of_closed hread)
  · obtain ⟨⟨m, r'⟩, hm, he⟩ := Option.bind_eq_some_iff.1 (found_of_closed hread)
    obtain ⟨e, rfl, he'⟩ := withExponent?_split he
    exact ⟨m, e, rfl, isMantissa_of hm, he'⟩
  · exact isMantissa_of (found_of_closed hread)
  · unfold longComment at hread
    split at hread
    · next rest =>
      obtain ⟨s, hs, hp⟩ := Option.map_eq_some_iff.1 hread
      cases s with
      | unfinished => cases hp
      | found body after =>
        cases hp
        exact ⟨body, rfl, isLong_of hs⟩
    · cases hread
  · exact isLexeme_lineComment (longComment_eq_none h) (found_of_closed hread)
  · exact isLong_of hread
  · exact isQuoted_of hread
  · exact isQuoted_of hread
  · have hop : operator? text = some (b, r) := found_of_closed hread
    obtain ⟨n, -, hn⟩ := List.exists_of_findSome?_eq_some hop
    unfold operatorOf? at hn
    split at hn
    · next hknown => cases hn; exact hknown
    · cases hn
  · exact mem_of_run? (found_of_closed hread)
  · exact mem_of_run? (found_of_closed hread)

/-! ## 2. How lexemes end -/

theorem IsMantissa.newline_not_mem {isDigit : Char → Bool} {m : List Char}
    (hdigit : isDigit '\n' = false) (h : IsMantissa isDigit m) : '\n' ∉ m := by
  intro hmem
  rcases h.mem _ hmem with h | h
  · rw [hdigit] at h
    cases h
  · exact absurd h (by decide)

theorem IsExponent.newline_not_mem {marks e : List Char} (hmarks : '\n' ∉ marks)
    (h : IsExponent marks e) : '\n' ∉ e := by
  intro hmem
  rcases h.mem _ hmem with h | h | h | h
  · exact absurd h (by decide)
  · exact hmarks h
  · exact absurd h (by decide)
  · exact absurd h (by decide)

/-- No lexeme but white space ends with a line feed. -/
theorem IsLexeme.getLast?_ne {kind : TokenKind} {b : List Char} (h : IsLexeme kind b)
    (hkind : kind ≠ .whitespace ∧ kind ≠ .invalid) : b.getLast? ≠ some '\n' := by
  have hinside : '\n' ∉ b → b.getLast? ≠ some '\n' := mt List.mem_of_getLast?
  have hhex : ∀ {x : Char}, x ∈ hexMarks → '\n' ≠ x := by
    rintro x hx rfl
    exact absurd hx (by decide)
  cases kind with
  | name =>
    obtain ⟨d, rest, rfl, hd, hrest⟩ := h
    refine hinside fun hmem => ?_
    rcases List.mem_cons.1 hmem with rfl | hmem
    · exact absurd hd (by decide)
    · exact absurd (hrest _ hmem) (by decide)
  | sciHexNumber =>
    obtain ⟨x, m, e, rfl, hx, hm, he⟩ := h
    exact hinside (by simp [hhex hx, hm.newline_not_mem (by decide), he.newline_not_mem (by decide)])
  | hexNumber =>
    obtain ⟨x, m, rfl, hx, hm⟩ := h
    exact hinside (by simp [hhex hx, hm.newline_not_mem (by decide)])
  | sciNumber =>
    obtain ⟨m, e, rfl, hm, he⟩ := h
    exact hinside (by simp [hm.newline_not_mem (by decide), he.newline_not_mem (by decide)])
  | number => exact hinside (IsMantissa.newline_not_mem (by decide) h)
  | blockComment =>
    obtain ⟨body, rfl, hlong⟩ := h
    simp [List.getLast?_cons, hlong.getLast?]
  | lineComment =>
    obtain ⟨body, rfl, hbody, -⟩ := h
    exact hinside (by simpa using fun hmem => absurd (hbody _ hmem) (by decide))
  | blockQuote => simp [IsLong.getLast? h]
  | doubleQuoted => simp [IsQuoted.getLast? h]
  | singleQuoted => simp [IsQuoted.getLast? h]
  | operator =>
    have hall : ∀ b ∈ symbols, b.getLast? ≠ some '\n' := by decide
    exact hall b (isLexeme_operator.1 h)
  | whitespace => exact absurd rfl hkind.1
  | invalid => exact absurd rfl hkind.2
  | keyword => exact h.elim
  | constant => exact h.elim
  | string => exact h.elim
  | comment => exact h.elim

end LuaLayout.Lexeme
