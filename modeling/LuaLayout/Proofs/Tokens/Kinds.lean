/-
LuaLayout.Proofs.Tokens.Kinds — which lexemes a classified token comes from.

Classification looks at the kind and the text of each token by itself, so it is
a test on every token and a change of every kind. Read backwards, the final kind
of a token tells the lexical classes it can have come from. A token of the
grammar is a lexeme that is neither white space nor a comment, or a number with
the minus that was joined to it.
-/
import LuaLayout.Reduction
import LuaLayout.Proofs.Lexing.Cuts

namespace LuaLayout

/-! ## 1. Classification, kind by kind -/

/-- The kind that a lexeme ends up as. -/
def finalKind (version : Version) : TokenKind → String → TokenKind
  | .operator, text => if text == Vocabulary.ellipsis then .constant else .operator
  | .name, text => nameKind (Vocabulary.keywords version) text
  | kind, _ => (collapsedKinds.lookup kind).getD kind

/-- The version accepts a lexeme. -/
def accepts (version : Version) : TokenKind → String → Bool
  | .operator, text => text == Vocabulary.ellipsis || Vocabulary.acceptsOperator version text
  | .invalid, _ => false
  | _, _ => true

namespace Token

/-- The token with its final kind. -/
def final (version : Version) (t : Token) : Token := { t with kind := finalKind version t.kind t.text }

end Token

theorem classify_eq_ok_iff {version : Version} {t u : Token} :
    classify version (Vocabulary.keywords version) t = .ok u ↔
      accepts version t.kind t.text = true ∧ u = t.final version := by
  obtain ⟨kind, text, pos⟩ := t
  cases kind with
  | operator =>
    simp only [classify, accepts, Token.final, finalKind]
    by_cases hdots : text == Vocabulary.ellipsis
    · simp [hdots, eq_comm]
    · by_cases hknown : Vocabulary.acceptsOperator version text
      · simp [hdots, hknown, eq_comm]
      · simp [hdots, hknown]
  | invalid => simp [classify, accepts]
  | _ => exact ⟨fun h => ⟨rfl, (Except.ok.inj h).symm⟩, fun h => by rw [h.2]; rfl⟩

theorem mapM_classify_eq_ok_iff {version : Version} {tokens classified : List Token} :
    tokens.mapM (classify version (Vocabulary.keywords version)) = .ok classified ↔
      (∀ t ∈ tokens, accepts version t.kind t.text = true) ∧
        classified = tokens.map (Token.final version) := by
  induction tokens generalizing classified with
  | nil => exact ⟨fun h => ⟨by simp, (Except.ok.inj h).symm⟩, fun h => by rw [h.2]; rfl⟩
  | cons t rest ih =>
    rw [List.mapM_cons]
    cases hc : classify version (Vocabulary.keywords version) t with
    | error fault =>
      have hnot : ¬ accepts version t.kind t.text = true := by
        intro h
        have hok := classify_eq_ok_iff.2 ⟨h, rfl⟩
        rw [hc] at hok
        cases hok
      simp [bind, Except.bind, hnot]
    | ok u =>
      obtain ⟨haccepts, rfl⟩ := classify_eq_ok_iff.1 hc
      cases hm : rest.mapM (classify version (Vocabulary.keywords version)) with
      | error fault =>
        have hnot : ¬ ∀ t ∈ rest, accepts version t.kind t.text = true := by
          intro h
          have hok := ih.2 ⟨h, rfl⟩
          rw [hm] at hok
          cases hok
        simp only [bind, Except.bind, List.forall_mem_cons, reduceCtorEq, false_iff, not_and]
        exact fun h => absurd h.2 hnot
      | ok later =>
        obtain ⟨hall, rfl⟩ := ih.1 hm
        simp only [bind, Except.bind, pure, Except.pure, List.forall_mem_cons, haccepts, true_and,
          List.map_cons, Except.ok.injEq]
        exact ⟨fun h => ⟨hall, h.symm⟩, fun h => h.2.symm⟩

/-- Classification fails at the first token that the version does not accept. -/
theorem mapM_classify_eq_error {version : Version} {tokens : List Token} {fault : Fault}
    (h : tokens.mapM (classify version (Vocabulary.keywords version)) = .error fault) :
    ∃ before t after, tokens = before ++ t :: after ∧
      (∀ u ∈ before, accepts version u.kind u.text = true) ∧
      classify version (Vocabulary.keywords version) t = .error fault := by
  induction tokens with
  | nil => cases h
  | cons t rest ih =>
    rw [List.mapM_cons] at h
    cases hc : classify version (Vocabulary.keywords version) t with
    | error fault' =>
      rw [hc] at h
      obtain rfl := Except.error.inj h
      exact ⟨[], t, rest, rfl, by simp, hc⟩
    | ok u =>
      have haccepted := (classify_eq_ok_iff.1 hc).1
      cases hm : rest.mapM (classify version (Vocabulary.keywords version)) with
      | ok later =>
        simp only [hc, hm, bind, Except.bind, pure, Except.pure, reduceCtorEq] at h
      | error fault' =>
        simp only [hc, hm, bind, Except.bind, Except.error.injEq] at h
        obtain rfl := h
        obtain ⟨before, x, after, rfl, hbefore, hx⟩ := ih hm
        exact ⟨t :: before, x, after, rfl, List.forall_mem_cons.2 ⟨haccepted, hbefore⟩, hx⟩

/-! ## 2. Kinds of lexemes -/

namespace TokenKind

/-- A lexical class of numbers. -/
def isNumeral : TokenKind → Bool
  | sciHexNumber | hexNumber | sciNumber | number => true
  | _ => false

/-- A lexical class of strings. -/
def isQuotation : TokenKind → Bool
  | blockQuote | doubleQuoted | singleQuoted => true
  | _ => false

/-- A lexical class of comments. -/
def isRemark : TokenKind → Bool
  | blockComment | lineComment => true
  | _ => false

/-- A lexical class that the grammar reads. -/
def isCode (kind : TokenKind) : Bool :=
  kind == name || kind == operator || kind.isNumeral || kind.isQuotation

theorem isCode_cases {kind : TokenKind} (h : kind.isCode = true) :
    kind = name ∨ kind = operator ∨ kind.isNumeral = true ∨ kind.isQuotation = true := by
  simpa [isCode, or_assoc] using h

/-- What the grammar reads is visible and not stray. -/
theorem isCode_visible {kind : TokenKind} (h : kind.isCode = true) :
    kind ≠ whitespace ∧ kind ≠ invalid := by
  refine ⟨?_, ?_⟩ <;> rintro rfl <;> cases h

theorem isRemark_visible {kind : TokenKind} (h : kind.isRemark = true) :
    kind ≠ whitespace ∧ kind ≠ invalid := by
  refine ⟨?_, ?_⟩ <;> rintro rfl <;> cases h

end TokenKind

/-- A lexeme that a version accepts, as a token with its final kind. -/
def Token.Comes (version : Version) (kind : TokenKind) (t : Token) : Prop :=
  Lexeme.IsLexeme kind t.text.toList ∧ accepts version kind t.text = true ∧
    t.kind = finalKind version kind t.text

section

variable {version : Version} {kind : TokenKind} {text : String}

theorem finalKind_numeral (h : kind.isNumeral = true) : finalKind version kind text = .number := by
  cases kind <;> first | rfl | cases h

theorem accepts_numeral (h : kind.isNumeral = true) : accepts version kind text = true := by
  cases kind <;> first | rfl | cases h

theorem finalKind_quotation (h : kind.isQuotation = true) :
    finalKind version kind text = .string := by
  cases kind <;> first | rfl | cases h

theorem finalKind_remark (h : kind.isRemark = true) : finalKind version kind text = .comment := by
  cases kind <;> first | rfl | cases h

theorem accepts_remark (h : kind.isRemark = true) : accepts version kind text = true := by
  cases kind <;> first | rfl | cases h

theorem nameKind_cases (keywords : List String) (text : String) :
    nameKind keywords text = .keyword ∧ text ∈ keywords ∨
    nameKind keywords text = .operator ∧ text ∈ Vocabulary.wordOperators ∨
    nameKind keywords text = .constant ∧ text ∈ Vocabulary.constants ∨
    nameKind keywords text = .name ∧ text ∉ keywords := by
  unfold nameKind
  split
  · next h => exact .inl ⟨rfl, by simpa using h⟩
  split
  · next h => exact .inr (.inl ⟨rfl, by simpa using h⟩)
  split
  · next h => exact .inr (.inr (.inl ⟨rfl, by simpa using h⟩))
  · next h _ _ => exact .inr (.inr (.inr ⟨rfl, by simpa using h⟩))

/-- The kinds that the lexer gives, of which the grammar reads those that are
neither white space nor comments. -/
theorem lexical_cases {b : List Char} (h : Lexeme.IsLexeme kind b)
    (haccepts : accepts version kind text = true) :
    kind.isCode = true ∧ finalKind version kind text ≠ .whitespace ∧
        finalKind version kind text ≠ .comment ∨
      kind.isRemark = true ∧ finalKind version kind text = .comment ∨
      kind = .whitespace ∧ finalKind version kind text = .whitespace := by
  cases kind with
  | name =>
    refine .inl ⟨rfl, ?_⟩
    simp only [finalKind]
    rcases nameKind_cases (Vocabulary.keywords version) text with h | h | h | h <;> simp [h.1]
  | operator =>
    refine .inl ⟨rfl, ?_⟩
    simp only [finalKind]
    split <;> simp
  | blockComment => exact .inr (.inl ⟨rfl, rfl⟩)
  | lineComment => exact .inr (.inl ⟨rfl, rfl⟩)
  | whitespace => exact .inr (.inr ⟨rfl, rfl⟩)
  | invalid => cases haccepts
  | keyword => exact h.elim
  | constant => exact h.elim
  | string => exact h.elim
  | comment => exact h.elim
  | _ => exact .inl ⟨rfl, nofun, nofun⟩

end

/-- Acceptance does not depend on places. -/
theorem accepts_place {version : Version} {segments : List Segment}
    (h : ∀ s ∈ segments, accepts version s.kind (String.ofList s.chars) = true) (p : Position) :
    ∀ t ∈ Segment.place p segments, accepts version t.kind t.text = true := by
  induction segments generalizing p with
  | nil => simp [Segment.place]
  | cons s rest ih =>
    obtain ⟨hs, hrest⟩ := List.forall_mem_cons.1 h
    exact List.forall_mem_cons.2 ⟨hs, ih hrest _⟩

end LuaLayout
