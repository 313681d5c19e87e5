/-
LuaLayout.Lexeme.Classes — the lexical classes in the order in which they are
tried.

The first class that applies decides, also when it finds no end: a text that
opens a long comment is never read as a line comment. Forms with an exponent
stand before those without, and hexadecimal before decimal, so that a number is
always taken as far as it goes.
-/
import LuaLayout.Token
import LuaLayout.Lexeme.Word
import LuaLayout.Lexeme.Numeral
import LuaLayout.Lexeme.LongBracket
import LuaLayout.Lexeme.Quoted

namespace LuaLayout.Lexeme

open Text

/-- A class that always finds its end. -/
def closed (cut? : List Char → Option Cut) : Reader := fun text => (cut? text).map Reading.ofCut

theorem closed_of {cut? : List Char → Option Cut}
    (hcut : ∀ {text c}, cut? text = some c → c.Of text) {text : List Char} {r : Reading}
    (h : closed cut? text = some r) : r.Of text := by
  obtain ⟨c, hc, rfl⟩ := Option.map_eq_some_iff.1 h
  exact hcut hc

/-- The lexical classes, first choice first. -/
def classes : List (TokenKind × Reader) :=
  [(.name, closed name?),
   (.sciHexNumber, closed scientificHex?),
   (.hexNumber, closed hexadecimal?),
   (.sciNumber, closed scientific?),
   (.number, closed decimal?),
   (.blockComment, longComment),
   (.lineComment, closed lineComment?),
   (.blockQuote, longString),
   (.doubleQuoted, quoted '"'),
   (.singleQuoted, quoted '\''),
   (.operator, closed operator?),
   (.whitespace, closed whitespace?),
   (.invalid, closed stray?)]

/-- No class loses a character or takes none. -/
theorem classes_of {kind : TokenKind} {read : Reader} (h : (kind, read) ∈ classes)
    {text : List Char} {r : Reading} (hr : read text = some r) : r.Of text := by
  simp only [classes, List.mem_cons, Prod.mk.injEq, List.not_mem_nil, or_false] at h
  rcases h with ⟨-, rfl⟩ | ⟨-, rfl⟩ | ⟨-, rfl⟩ | ⟨-, rfl⟩ | ⟨-, rfl⟩ | ⟨-, rfl⟩ | ⟨-, rfl⟩ |
    ⟨-, rfl⟩ | ⟨-, rfl⟩ | ⟨-, rfl⟩ | ⟨-, rfl⟩ | ⟨-, rfl⟩ | ⟨-, rfl⟩
  · exact closed_of name?_of hr
  · exact closed_of scientificHex?_of hr
  · exact closed_of hexadecimal?_of hr
  · exact closed_of scientific?_of hr
  · exact closed_of decimal?_of hr
  · exact longComment_of hr
  · exact closed_of lineComment?_of hr
  · exact longString_of hr
  · exact quoted_of hr
  · exact quoted_of hr
  · exact closed_of operator?_of hr
  · exact closed_of whitespace?_of hr
  · exact closed_of stray?_of hr

/-- The answer of the first class that applies. -/
def first? (text : List Char) : Option (TokenKind × Reading) :=
  classes.findSome? fun (kind, read) => (read text).map (kind, ·)

theorem first?_of {text : List Char} {kind : TokenKind} {r : Reading}
    (h : first? text = some (kind, r)) : r.Of text := by
  obtain ⟨⟨kind', read⟩, hmem, hread⟩ := List.exists_of_findSome?_eq_some h
  obtain ⟨r', hr', hp⟩ := Option.map_eq_some_iff.1 hread
  cases hp
  exact classes_of hmem hr'

theorem first?_nil : first? [] = none := by decide

theorem first?_rest_lt {text : List Char} {kind : TokenKind} {body rest : List Char}
    (h : first? text = some (kind, .found body rest)) : rest.length < text.length := by
  have hof : Cut.Of (body, rest) text := first?_of h
  have hlen := congrArg List.length hof.2
  have hpos := List.length_pos_iff.2 hof.1
  simp only [List.length_append] at hlen hpos
  omega

/-- Some class applies wherever a character is left. -/
theorem first?_isSome (c : Char) (rest : List Char) : (first? (c :: rest)).isSome := by
  rw [first?, List.findSome?_isSome_iff]
  simp only [Option.isSome_map]
  by_cases hn : isNameStart c = true
  · exact ⟨(.name, closed name?), by simp [classes], by simp [closed, name?_isSome rest hn]⟩
  by_cases hd : isDecimalDigit c = true
  · exact ⟨(.number, closed decimal?), by simp [classes],
      by simp [closed, decimal?, mantissa?_isSome rest hd]⟩
  by_cases hb : isBlank c = true
  · exact ⟨(.whitespace, closed whitespace?), by simp [classes],
      by simp [closed, whitespace?, run?_isSome rest hb]⟩
  by_cases hq : c = '"'
  · subst hq
    exact ⟨(.doubleQuoted, quoted '"'), by simp [classes], quoted_isSome '"' rest⟩
  by_cases hs : c = '\''
  · subst hs
    exact ⟨(.singleQuoted, quoted '\''), by simp [classes], quoted_isSome '\'' rest⟩
  by_cases ho : Vocabulary.isOperatorChar c = true
  · exact ⟨(.operator, closed operator?), by simp [classes],
      by simp [closed, operator?_isSome rest ho]⟩
  have hdigit : c.isDigit = false := by
    cases h : c.isDigit with
    | false => rfl
    | true => exact absurd (isDecimalDigit_of_isDigit h) hd
  have hstray : isStray c = true := by simp_all [isStray, isNamePart]
  exact ⟨(.invalid, closed stray?), by simp [classes],
    by simp [closed, stray?, run?_isSome rest hstray]⟩

end LuaLayout.Lexeme
