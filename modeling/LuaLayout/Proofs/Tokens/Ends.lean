/-
LuaLayout.Proofs.Tokens.Ends — where the words of a program end.

A word on the page is a lexeme, or a number with its minus, which is read as two
lexemes. `Ends` says that a word is read as itself before a character. A token
of the grammar ends before every character that its kind allows: a name before
what goes on with no name, a number before what goes on with no number, a string
before everything.

A lone minus is never the last word on a line. Comments are put down between
lines only, so none comes between a minus and its number.
-/
import LuaLayout.Parser.Expression
import LuaLayout.Proofs.Tokens.Kinds

namespace LuaLayout

open Text Lexeme

/-! ## 1. Words before a character -/

/-- The word is one lexeme of the grammar, which ends before the character. -/
def Plain (word : List Char) (c : Char) : Prop :=
  ∃ kind : TokenKind, kind.isCode = true ∧ IsLexeme kind word ∧ Follows kind word c ∧
    (word = ['-'] → c ≠ '\n')

/-- A character that begins a number: a digit or a point. -/
def beginsNumber (c : Char) : Bool := isDecimalDigit c || c == '.'

/-- The word ends before the character; it may be a number after a minus. -/
def Ends (word : List Char) (c : Char) : Prop :=
  Plain word c ∨ ∃ d rest, word = '-' :: d :: rest ∧ beginsNumber d = true ∧ Plain (d :: rest) c

namespace Token

/-- A token that the grammar reads: a lexeme, or a number with its minus. -/
inductive Genuine (version : Version) (t : Token) : Prop
  | plain (kind : TokenKind) : kind.isCode = true → t.Comes version kind → Genuine version t
  | signed (kind : TokenKind) (number : String) : kind.isNumeral = true →
      IsLexeme kind number.toList → t.kind = .number → t.text = "-" ++ number → Genuine version t

/-! ## 2. From the final kind to the lexeme -/

section

variable {version : Version} {t : Token}

/-- What a token of the grammar can be. -/
theorem Genuine.sorts (h : t.Genuine version) :
    (IsLexeme .name t.text.toList ∧ t.kind = nameKind (Vocabulary.keywords version) t.text) ∨
    (t.kind = .constant ∧ t.text = Vocabulary.ellipsis) ∨
    (t.kind = .operator ∧ IsLexeme .operator t.text.toList ∧ t.text ≠ Vocabulary.ellipsis) ∨
    (t.kind = .number ∧ ∃ kind : TokenKind, kind.isNumeral = true ∧ IsLexeme kind t.text.toList) ∨
    (t.kind = .string ∧ ∃ kind : TokenKind, kind.isQuotation = true ∧
      IsLexeme kind t.text.toList) ∨
    (t.kind = .number ∧ ∃ (kind : TokenKind) (number : String), kind.isNumeral = true ∧
      IsLexeme kind number.toList ∧ t.text = "-" ++ number) := by
  cases h with
  | signed kind number hnumeral hlex hkind htext =>
    exact .inr (.inr (.inr (.inr (.inr ⟨hkind, kind, number, hnumeral, hlex, htext⟩))))
  | plain kind hcode hcomes =>
    obtain ⟨hlex, -, hkind⟩ := hcomes
    rcases TokenKind.isCode_cases hcode with rfl | rfl | hnumeral | hquotation
    · exact .inl ⟨hlex, hkind⟩
    · simp only [finalKind] at hkind
      split at hkind
      · next hdots => exact .inr (.inl ⟨hkind, by simpa using hdots⟩)
      · next hdots => exact .inr (.inr (.inl ⟨hkind, hlex, by simpa using hdots⟩))
    · rw [finalKind_numeral hnumeral] at hkind
      exact .inr (.inr (.inr (.inl ⟨hkind, kind, hnumeral, hlex⟩)))
    · rw [finalKind_quotation hquotation] at hkind
      exact .inr (.inr (.inr (.inr (.inl ⟨hkind, kind, hquotation, hlex⟩))))

end

end Token

/-! ## 3. Lexemes and their first characters -/

/-- A character between a lowest and a highest code point in none of the blank ranges. -/
theorem isBlank_eq_false_of {c : Char}
    (h : ∀ r ∈ blankRanges, c.toNat < r.first ∨ r.last < c.toNat) : isBlank c = false := by
  rw [isBlank, List.any_eq_false]
  intro r hr
  simp only [CodeRange.contains, Bool.and_eq_true, decide_eq_true_eq, not_and, Nat.not_le]
  have := h r hr
  omega

theorem isBlank_of_isNameStart {c : Char} (h : isNameStart c = true) : isBlank c = false := by
  refine isBlank_eq_false_of fun r hr => ?_
  have hranges : ∀ r ∈ blankRanges, r.last < 65 ∨ 122 < r.first := by decide
  have hr' := hranges r hr
  rcases isNameStart_iff.1 h with h | rfl
  · omega
  · change _ ∨ _ < 95
    have : ('_' : Char).toNat = 95 := rfl
    omega

theorem isBlank_of_isDecimalDigit {c : Char} (h : isDecimalDigit c = true) : isBlank c = false := by
  refine isBlank_eq_false_of fun r hr => ?_
  have hranges : ∀ z ∈ digitZeros, ∀ r ∈ blankRanges, r.last < z ∨ z + 10 ≤ r.first := by decide
  obtain ⟨z, hz⟩ := Option.isSome_iff_exists.1 h
  obtain ⟨first, hfind, -⟩ := Option.map_eq_some_iff.1 hz
  have hrange := List.find?_some hfind
  have hapart := hranges first (List.mem_of_find?_eq_some hfind) r hr
  simp only [Bool.and_eq_true, decide_eq_true_eq] at hrange
  omega

theorem isBlank_of_beginsNumber {c : Char} (h : beginsNumber c = true) : isBlank c = false := by
  simp only [beginsNumber, Bool.or_eq_true, beq_iff_eq] at h
  rcases h with h | rfl
  · exact isBlank_of_isDecimalDigit h
  · decide

/-- A number begins with a digit or a point. -/
theorem numeral_starts {kind : TokenKind} {w : List Char} (hkind : kind.isNumeral = true)
    (h : IsLexeme kind w) : ∃ d rest, w = d :: rest ∧ beginsNumber d = true := by
  have hmantissa : ∀ {m : List Char}, IsMantissa isDecimalDigit m →
      ∃ d rest, m = d :: rest ∧ beginsNumber d = true := by
    intro m hm
    obtain ⟨d, rest, rfl, hd⟩ := hm.starts
    exact ⟨d, rest, rfl, by simpa [beginsNumber] using hd⟩
  cases kind with
  | sciHexNumber =>
    obtain ⟨x, m, e, rfl, -⟩ := h
    exact ⟨_, _, rfl, by decide⟩
  | hexNumber =>
    obtain ⟨x, m, rfl, -⟩ := h
    exact ⟨_, _, rfl, by decide⟩
  | sciNumber =>
    obtain ⟨m, e, rfl, hm, -⟩ := h
    obtain ⟨d, rest, rfl, hd⟩ := hmantissa hm
    exact ⟨d, _, rfl, hd⟩
  | number => exact hmantissa h
  | _ => cases hkind

/-- A string begins with a quote or a square bracket. -/
theorem quotation_starts {kind : TokenKind} {w : List Char} (hkind : kind.isQuotation = true)
    (h : IsLexeme kind w) : ∃ d rest, w = d :: rest ∧ (d = '"' ∨ d = '\'' ∨ d = '[') := by
  cases kind with
  | blockQuote =>
    obtain ⟨level, body, rfl, -⟩ := h
    exact ⟨_, _, rfl, .inr (.inr rfl)⟩
  | doubleQuoted =>
    obtain ⟨body, rfl, -⟩ := h
    exact ⟨_, _, rfl, .inl rfl⟩
  | singleQuoted =>
    obtain ⟨body, rfl, -⟩ := h
    exact ⟨_, _, rfl, .inr (.inl rfl)⟩
  | _ => cases hkind

/-- An operator begins with a visible character. -/
theorem operator_starts {w : List Char} (h : IsLexeme .operator w) :
    ∃ d rest, w = d :: rest ∧ isBlank d = false := by
  have hops : ∀ op ∈ symbols, op.head?.any (!isBlank ·) = true := by decide
  have hvisible := hops w (isLexeme_operator.1 h)
  cases w with
  | nil => cases hvisible
  | cons x rest => exact ⟨x, rest, rfl, by simpa using hvisible⟩

/-- Every lexeme of the grammar begins with a visible character. -/
theorem code_starts {kind : TokenKind} {w : List Char} (hkind : kind.isCode = true)
    (h : IsLexeme kind w) : ∃ d rest, w = d :: rest ∧ isBlank d = false := by
  rcases TokenKind.isCode_cases hkind with rfl | rfl | hnumeral | hquotation
  · obtain ⟨d, rest, rfl, hd, -⟩ := h
    exact ⟨d, rest, rfl, isBlank_of_isNameStart hd⟩
  · exact operator_starts h
  · obtain ⟨d, rest, rfl, hd⟩ := numeral_starts hnumeral h
    exact ⟨d, rest, rfl, isBlank_of_beginsNumber hd⟩
  · obtain ⟨d, rest, rfl, hd⟩ := quotation_starts hquotation h
    refine ⟨d, rest, rfl, ?_⟩
    rcases hd with rfl | rfl | rfl <;> decide

/-- A word that ends somewhere begins with a visible character. -/
theorem Ends.starts {w : List Char} {c : Char} (h : Ends w c) :
    ∃ d rest, w = d :: rest ∧ isBlank d = false := by
  rcases h with ⟨kind, hcode, hlex, -⟩ | ⟨d, rest, rfl, -⟩
  · exact code_starts hcode hlex
  · exact ⟨'-', _, rfl, by decide⟩

/-! ## 4. Words and symbols by their texts -/

/-- The characters are a name or a keyword. -/
def isWord : List Char → Bool
  | [] => false
  | d :: rest => isNameStart d && rest.all isNamePart

theorem isLexeme_of_isWord {w : List Char} (h : isWord w = true) : IsLexeme .name w := by
  cases w with
  | nil => cases h
  | cons d rest =>
    simp only [isWord, Bool.and_eq_true, List.all_eq_true] at h
    exact ⟨d, rest, rfl, h⟩

theorem ends_name {w : List Char} {c : Char} (h : IsLexeme .name w) (hc : isNamePart c = false) :
    Ends w c := by
  refine .inl ⟨.name, rfl, h, hc, ?_⟩
  rintro rfl
  obtain ⟨d, rest, hw, hd, -⟩ := h
  cases hw
  exact absurd hd (by decide)

/-- An operator that no other one begins with, and that opens nothing. -/
def isLone (w : List Char) : Bool :=
  symbols.contains w && symbols.all (fun op => !w.isPrefixOf op || op == w) &&
    w != ['.'] && w != ['-'] && w != ['[']

theorem parts_of_extends {w : List Char} {c : Char}
    (h : ∀ op ∈ symbols, ¬ (w ++ [c]) <+: op) :
    Vocabulary.allOperators.all (fun op => !(w ++ [c]).isPrefixOf op.toList) = true := by
  rw [List.all_eq_true]
  intro op hop
  rw [Bool.not_eq_true', Bool.eq_false_iff, ne_eq, List.isPrefixOf_iff_prefix]
  exact h op.toList (mem_allOperators.1 hop)

theorem ends_lone {w : List Char} (h : isLone w = true) (c : Char) : Ends w c := by
  simp only [isLone, Bool.and_eq_true, bne_iff_ne, ne_eq] at h
  obtain ⟨⟨⟨⟨hmem, hall⟩, hpoint⟩, hminus⟩, hbracket⟩ := h
  have hlex := isLexeme_operator.2 (List.contains_iff_mem.1 hmem)
  refine .inl ⟨.operator, rfl, hlex, ⟨parts_of_extends ?_, fun hw => absurd hw hpoint,
    fun hw => absurd hw hminus, fun hw => absurd hw hbracket⟩, fun hw => absurd hw hminus⟩
  intro op hop hfront
  have hlonger := List.all_eq_true.1 hall op hop
  simp only [Bool.or_eq_true, Bool.not_eq_true', Bool.eq_false_iff, ne_eq,
    List.isPrefixOf_iff_prefix, beq_iff_eq] at hlonger
  rcases hlonger with hnot | heq
  · exact hnot ((List.prefix_append w [c]).trans hfront)
  · have hlen := hfront.length_le
    rw [heq, List.length_append, List.length_singleton] at hlen
    omega

/-- Before what is no operator character and no digit, every operator ends. -/
theorem parts_of_other {w : List Char} {c : Char} (hc : Vocabulary.isOperatorChar c = false)
    (hdigit : isDecimalDigit c = false) : Parts w c := by
  have hchars : ∀ op ∈ symbols, op.all Vocabulary.isOperatorChar = true := by decide
  refine ⟨parts_of_extends fun op hop hfront => ?_, fun _ => hdigit, ?_, ?_⟩
  · have hx := List.all_eq_true.1 (hchars op hop) c (hfront.subset (by simp))
    rw [hc] at hx
    cases hx
  · rintro - rfl
    exact absurd hc (by decide)
  · rintro -
    constructor <;> (rintro rfl; exact absurd hc (by decide))

/-- A minus ends before everything but a second one. -/
theorem parts_minus {c : Char} (hminus : c ≠ '-') : Parts ['-'] c := by
  have hnone : ∀ op ∈ symbols, ['-'] <+: op → op = ['-'] := by decide
  refine ⟨parts_of_extends fun op hop hfront => ?_, nofun, fun _ => hminus, nofun⟩
  have heq := hnone op hop ((List.prefix_append ['-'] [c]).trans hfront)
  have hlen := hfront.length_le
  rw [heq] at hlen
  simp at hlen

theorem ends_operator {w : List Char} {c : Char} (h : IsLexeme .operator w) (hparts : Parts w c)
    (hline : w = ['-'] → c ≠ '\n') : Ends w c :=
  .inl ⟨.operator, rfl, h, hparts, hline⟩

theorem ends_operator_space {w : List Char} (h : IsLexeme .operator w) : Ends w ' ' :=
  ends_operator h (parts_of_other (by decide) (by decide)) (fun _ => by decide)

theorem not_isOperatorChar_of_isNameStart {c : Char} (h : isNameStart c = true) :
    Vocabulary.isOperatorChar c = false := by
  have hchars : Vocabulary.operatorChars.toList.all (!isNameStart ·) = true := by decide
  cases hc : Vocabulary.isOperatorChar c with
  | false => rfl
  | true =>
    have hx := List.all_eq_true.1 hchars c (by simpa [Vocabulary.isOperatorChar] using hc)
    rw [h] at hx
    cases hx

theorem not_isDecimalDigit_of_isNameStart {c : Char} (h : isNameStart c = true) :
    isDecimalDigit c = false := by
  cases hc : isDecimalDigit c with
  | false => rfl
  | true =>
    rw [not_isNameStart_of_isDecimalDigit hc] at h
    cases h

/-- Before a name every operator ends. -/
theorem ends_operator_name {w : List Char} {c : Char} (h : IsLexeme .operator w)
    (hc : isNameStart c = true) : Ends w c := by
  refine ends_operator h (parts_of_other (not_isOperatorChar_of_isNameStart hc)
    (not_isDecimalDigit_of_isNameStart hc)) ?_
  rintro - rfl
  exact absurd hc (by decide)

/-- An opening square bracket ends before what makes no long bracket of it. -/
theorem ends_bracket {c : Char} (hc : c ≠ '[' ∧ c ≠ '=') : Ends ['['] c := by
  have hlex : ['['] ∈ symbols := by decide
  refine ends_operator (isLexeme_operator.2 hlex) ⟨parts_of_extends ?_, nofun, nofun, fun _ => hc⟩ nofun
  have hnone : ∀ op ∈ symbols, ['['] <+: op → op = ['['] := by decide
  intro op hop hfront
  have heq := hnone op hop ((List.prefix_append ['['] [c]).trans hfront)
  have hlen := hfront.length_le
  rw [heq] at hlen
  simp at hlen

/-! ## 5. Tokens of the grammar by their kinds -/

namespace Token.Genuine

variable {version : Version} {t : Token} {c : Char}

/-- Every token of the grammar begins with a visible character. -/
theorem starts (h : t.Genuine version) : ∃ d rest, t.text.toList = d :: rest ∧ isBlank d = false := by
  cases h with
  | plain kind hcode hcomes => exact code_starts hcode hcomes.1
  | signed kind number hnumeral hlex hkind htext =>
    exact ⟨'-', number.toList, by simp [htext], by decide⟩

theorem string_lexeme (h : t.Genuine version) (hkind : t.kind = .string) :
    ∃ kind : TokenKind, kind.isQuotation = true ∧ IsLexeme kind t.text.toList := by
  rcases h.sorts with ⟨-, hk⟩ | ⟨hk, -⟩ | ⟨hk, -⟩ | ⟨hk, -⟩ | ⟨-, hlex⟩ | ⟨hk, -⟩
  · rcases nameKind_cases (Vocabulary.keywords version) t.text with h' | h' | h' | h' <;>
      simp [hk, h'.1] at hkind
  · simp [hk] at hkind
  · simp [hk] at hkind
  · simp [hk] at hkind
  · exact hlex
  · simp [hk] at hkind

theorem ends_string (h : t.Genuine version) (hkind : t.kind = .string) : Ends t.text.toList c := by
  obtain ⟨kind, hquotation, hlex⟩ := h.string_lexeme hkind
  refine .inl ⟨kind, by simp [TokenKind.isCode, hquotation], hlex, ?_, ?_⟩
  · cases kind with
    | blockQuote => trivial
    | doubleQuoted => trivial
    | singleQuoted => trivial
    | _ => cases hquotation
  · intro hw
    obtain ⟨d, rest, hd, hcases⟩ := quotation_starts hquotation hlex
    rw [hw] at hd
    cases hd
    exact absurd hcases (by decide)

theorem ends_name (h : t.Genuine version) (hkind : t.kind = .name ∨ t.kind = .keyword)
    (hc : isNamePart c = false) : Ends t.text.toList c := by
  rcases h.sorts with ⟨hlex, -⟩ | ⟨hk, -⟩ | ⟨hk, -⟩ | ⟨hk, -⟩ | ⟨hk, -⟩ | ⟨hk, -⟩
  · exact LuaLayout.ends_name hlex hc
  all_goals simp [hk] at hkind

theorem ends_number (h : t.Genuine version) (hkind : t.kind = .number) (hc : Stops c) :
    Ends t.text.toList c := by
  have hplain : ∀ {kind : TokenKind} {w : List Char}, kind.isNumeral = true → IsLexeme kind w →
      Plain w c := by
    intro kind w hnumeral hlex
    refine ⟨kind, by simp [TokenKind.isCode, hnumeral], hlex, ?_, ?_⟩
    · cases kind with
      | sciHexNumber => exact hc
      | hexNumber => exact hc
      | sciNumber => exact hc
      | number => exact hc
      | _ => cases hnumeral
    · rintro rfl
      obtain ⟨d, rest, hd, hbegins⟩ := numeral_starts hnumeral hlex
      cases hd
      exact absurd hbegins (by decide)
  rcases h.sorts with ⟨-, hk⟩ | ⟨hk, -⟩ | ⟨hk, -⟩ | ⟨-, kind, hnumeral, hlex⟩ | ⟨hk, -⟩ |
    ⟨-, kind, number, hnumeral, hlex, htext⟩
  · rcases nameKind_cases (Vocabulary.keywords version) t.text with h' | h' | h' | h' <;>
      simp [hk, h'.1] at hkind
  · simp [hk] at hkind
  · simp [hk] at hkind
  · exact .inl (hplain hnumeral hlex)
  · simp [hk] at hkind
  · obtain ⟨d, rest, hd, hbegins⟩ := numeral_starts hnumeral hlex
    refine .inr ⟨d, rest, ?_, hbegins, hd ▸ hplain hnumeral hlex⟩
    rw [htext, String.toList_append, hd]
    rfl

theorem ends_constant (h : t.Genuine version) (hkind : t.kind = .constant)
    (hc : isNamePart c = false) : Ends t.text.toList c := by
  rcases h.sorts with ⟨hlex, -⟩ | ⟨-, htext⟩ | ⟨hk, -⟩ | ⟨hk, -⟩ | ⟨hk, -⟩ | ⟨hk, -⟩
  · exact LuaLayout.ends_name hlex hc
  · rw [htext]
    exact ends_lone (by decide) c
  all_goals simp [hk] at hkind

/-- A literal ends before what goes on with neither a number nor a name. -/
theorem ends_literal (h : t.Genuine version) (hkind : Parser.isLiteral t = true) (hc : Stops c) :
    Ends t.text.toList c := by
  simp only [Parser.isLiteral, Bool.or_eq_true, beq_iff_eq] at hkind
  rcases hkind with (hkind | hkind) | hkind
  · exact h.ends_number hkind hc
  · exact h.ends_string hkind
  · exact h.ends_constant hkind hc.name

/-- An operator is a word or a symbol. -/
theorem operator_cases (h : t.Genuine version) (hkind : t.kind = .operator) :
    IsLexeme .name t.text.toList ∧ t.text ∈ Vocabulary.wordOperators ∨
      IsLexeme .operator t.text.toList := by
  rcases h.sorts with ⟨hlex, hk⟩ | ⟨hk, -⟩ | ⟨-, hlex, -⟩ | ⟨hk, -⟩ | ⟨hk, -⟩ | ⟨hk, -⟩
  · rcases nameKind_cases (Vocabulary.keywords version) t.text with h' | h' | h' | h'
    · simp [hk, h'.1] at hkind
    · exact .inl ⟨hlex, h'.2⟩
    · simp [hk, h'.1] at hkind
    · simp [hk, h'.1] at hkind
  · simp [hk] at hkind
  · exact .inr hlex
  all_goals simp [hk] at hkind

theorem ends_operator_space (h : t.Genuine version) (hkind : t.kind = .operator) :
    Ends t.text.toList ' ' := by
  rcases h.operator_cases hkind with ⟨hlex, -⟩ | hlex
  · exact LuaLayout.ends_name hlex (by decide)
  · exact LuaLayout.ends_operator_space hlex

/-! First characters, by kind. -/

theorem name_lexeme (h : t.Genuine version) (hkind : t.kind = .name ∨ t.kind = .keyword) :
    IsLexeme .name t.text.toList := by
  rcases h.sorts with ⟨hlex, -⟩ | ⟨hk, -⟩ | ⟨hk, -⟩ | ⟨hk, -⟩ | ⟨hk, -⟩ | ⟨hk, -⟩
  · exact hlex
  all_goals simp [hk] at hkind

theorem name_starts (h : t.Genuine version) (hkind : t.kind = .name ∨ t.kind = .keyword) :
    ∃ d rest, t.text.toList = d :: rest ∧ isNameStart d = true := by
  obtain ⟨d, rest, hd, hstart, -⟩ := h.name_lexeme hkind
  exact ⟨d, rest, hd, hstart⟩

theorem number_starts (h : t.Genuine version) (hkind : t.kind = .number) :
    ∃ d rest, t.text.toList = d :: rest ∧ (beginsNumber d = true ∨ d = '-') := by
  rcases h.sorts with ⟨-, hk⟩ | ⟨hk, -⟩ | ⟨hk, -⟩ | ⟨-, kind, hnumeral, hlex⟩ | ⟨hk, -⟩ |
    ⟨-, kind, number, hnumeral, hlex, htext⟩
  · rcases nameKind_cases (Vocabulary.keywords version) t.text with h' | h' | h' | h' <;>
      simp [hk, h'.1] at hkind
  · simp [hk] at hkind
  · simp [hk] at hkind
  · obtain ⟨d, rest, hd, hbegins⟩ := numeral_starts hnumeral hlex
    exact ⟨d, rest, hd, .inl hbegins⟩
  · simp [hk] at hkind
  · exact ⟨'-', number.toList, by simp [htext], .inr rfl⟩

theorem constant_starts (h : t.Genuine version) (hkind : t.kind = .constant) :
    ∃ d rest, t.text.toList = d :: rest ∧ (isNameStart d = true ∨ d = '.') := by
  rcases h.sorts with ⟨⟨d, rest, hd, hstart, -⟩, -⟩ | ⟨-, htext⟩ | ⟨hk, -⟩ | ⟨hk, -⟩ | ⟨hk, -⟩ |
    ⟨hk, -⟩
  · exact ⟨d, rest, hd, .inl hstart⟩
  · exact ⟨'.', ['.', '.'], by rw [htext]; rfl, .inr rfl⟩
  all_goals simp [hk] at hkind

theorem string_starts (h : t.Genuine version) (hkind : t.kind = .string) :
    ∃ d rest, t.text.toList = d :: rest ∧ (d = '"' ∨ d = '\'' ∨ d = '[') := by
  obtain ⟨kind, hquotation, hlex⟩ := h.string_lexeme hkind
  exact quotation_starts hquotation hlex

end Token.Genuine

end LuaLayout
