/-
LuaLayout.Proofs.Tokens.Spelling — what a token is up to its place.

The text of a lexeme tells its lexical class: it is the one that the text has in
front of a line end. So a token of a program is known by its text, except for
where it stands; `Token.bare` forgets that, and `spell` finds the rest from the
text. What reducing does to tokens does not depend on their places.
-/
import LuaLayout.Proofs.Tokens.Signs

namespace LuaLayout

open Lexeme

/-! ## 1. Tokens without places -/

namespace Token

/-- The token moved to the start. -/
def bare (t : Token) : Token := { t with pos := Position.start }

@[simp] theorem bare_kind (t : Token) : t.bare.kind = t.kind := rfl

@[simp] theorem bare_text (t : Token) : t.bare.text = t.text := rfl

theorem bare_eq_iff {t u : Token} : t.bare = u.bare ↔ t.kind = u.kind ∧ t.text = u.text := by
  obtain ⟨kind, text, pos⟩ := t
  obtain ⟨kind', text', pos'⟩ := u
  simp [bare]

end Token

theorem foldsPast_bare (folds : Bool) (t : Token) : foldsPast folds t.bare = foldsPast folds t := rfl

/-- Signs are joined wherever the tokens stand. -/
theorem map_bare_joinSigns (folds : Bool) (tokens : List Token) :
    (joinSigns folds tokens).map Token.bare = joinSigns folds (tokens.map Token.bare) := by
  fun_induction joinSigns folds tokens with
  | case1 folds => rfl
  | case2 folds t => rfl
  | case3 folds t n rest h ih =>
    have hbare : (n.bare.kind == .number && t.bare.isOperator "-" && folds) = true := h
    simp only [List.map_cons, ih, joinSigns, if_pos hbare]
    rfl
  | case4 folds t n rest h ih =>
    have hbare : ¬ (n.bare.kind == .number && t.bare.isOperator "-" && folds) = true := h
    simp only [List.map_cons, ih, joinSigns, if_neg hbare, foldsPast_bare]

/-! ## 2. From the text to the class -/

/-- The characters are a comment. -/
def IsRemark (b : List Char) : Prop := IsLexeme .blockComment b ∨ IsLexeme .lineComment b

/-- The class that a text has in front of a line end. -/
def rawKind (text : String) : TokenKind :=
  match first? (text.toList ++ ['\n']) with
  | some (kind, _) => kind
  | none => .invalid

theorem rawKind_eq {kind : TokenKind} {text : String} (h : IsLexeme kind text.toList)
    (hfollows : Follows kind text.toList '\n') : rawKind text = kind := by
  have hkind : kind ≠ .whitespace ∧ kind ≠ .invalid := by
    refine ⟨?_, ?_⟩ <;> rintro rfl
    · exact absurd hfollows.2 (by decide)
    · exact hfollows
  simp only [rawKind, first?_append (r := ['\n']) hkind h (by simpa using hfollows)]

/-- Every lexeme of the grammar ends before a line end. -/
theorem follows_line {kind : TokenKind} {w : List Char} (hcode : kind.isCode = true) :
    Follows kind w '\n' := by
  cases kind with
  | name => exact (by decide : Text.isNamePart '\n' = false)
  | sciHexNumber => exact ⟨by decide, by decide, by decide⟩
  | hexNumber => exact ⟨by decide, by decide, by decide⟩
  | sciNumber => exact ⟨by decide, by decide, by decide⟩
  | number => exact ⟨by decide, by decide, by decide⟩
  | blockQuote => trivial
  | doubleQuoted => trivial
  | singleQuoted => trivial
  | operator => exact parts_of_other (by decide) (by decide)
  | _ => cases hcode

theorem rawKind_code {kind : TokenKind} {text : String} (hcode : kind.isCode = true)
    (h : IsLexeme kind text.toList) : rawKind text = kind :=
  rawKind_eq h (follows_line hcode)

theorem isRemark_rawKind {text : String} (h : IsRemark text.toList) :
    (rawKind text).isRemark = true ∧ IsLexeme (rawKind text) text.toList ∧
      Follows (rawKind text) text.toList '\n' := by
  rcases h with h | h
  · have hfollows : Follows .blockComment text.toList '\n' := trivial
    rw [rawKind_eq h hfollows]
    exact ⟨rfl, h, hfollows⟩
  · have hfollows : Follows .lineComment text.toList '\n' := rfl
    rw [rawKind_eq h hfollows]
    exact ⟨rfl, h, hfollows⟩

/-- The token that a text spells, at the start. -/
def spell (version : Version) (text : String) : Token :=
  ⟨finalKind version (rawKind text) text, text, Position.start⟩

@[simp] theorem spell_text (version : Version) (text : String) : (spell version text).text = text :=
  rfl

section

variable {version : Version} {kind : TokenKind} {t : Token}

theorem Token.Comes.bare_eq (hcode : kind.isCode = true) (h : t.Comes version kind) :
    t.bare = spell version t.text := by
  obtain ⟨hlex, -, hkind⟩ := h
  rw [spell, rawKind_code hcode hlex, ← hkind]
  rfl

theorem spell_remark {text : String} (h : IsRemark text.toList) :
    (spell version text).kind = .comment := finalKind_remark (isRemark_rawKind h).1

/-- The text is a lexeme of the grammar that the version accepts. -/
def IsCode (version : Version) (text : String) : Prop :=
  ∃ kind : TokenKind, kind.isCode = true ∧ IsLexeme kind text.toList ∧
    accepts version kind text = true

theorem IsCode.accepts {text : String} (h : IsCode version text) :
    accepts version (rawKind text) text = true := by
  obtain ⟨kind, hcode, hlex, haccepts⟩ := h
  rwa [rawKind_code hcode hlex]

theorem IsCode.kind_ne {text : String} (h : IsCode version text) :
    (spell version text).kind ≠ .whitespace ∧ (spell version text).kind ≠ .comment := by
  obtain ⟨kind, hcode, hlex, haccepts⟩ := h
  simp only [spell, rawKind_code hcode hlex]
  rcases lexical_cases hlex haccepts with ⟨-, hspace, hcomment⟩ | ⟨hremark, -⟩ | ⟨rfl, -⟩
  · exact ⟨hspace, hcomment⟩
  · cases kind with
    | blockComment => cases hcode
    | lineComment => cases hcode
    | _ => cases hremark
  · cases hcode

/-- Every operator but the three dots spells itself. -/
theorem spell_operator {text : String} (h : text ∈ Vocabulary.allOperators)
    (hdots : text ≠ Vocabulary.ellipsis) : spell version text = ⟨.operator, text, Position.start⟩ := by
  have hlex : IsLexeme .operator text.toList := by
    change Vocabulary.allOperators.contains (String.ofList text.toList) = true
    rw [String.ofList_toList]
    exact List.contains_iff_mem.2 h
  have hkind : finalKind version .operator text = .operator := by simp [finalKind, hdots]
  rw [spell, rawKind_code rfl hlex, hkind]

/-- A keyword of every version spells itself. -/
theorem spell_keyword {text : String} (h : text ∈ Vocabulary.baseKeywords) :
    IsCode version text ∧ spell version text = ⟨.keyword, text, Position.start⟩ := by
  have hwords : ∀ w ∈ Vocabulary.baseKeywords, isWord w.toList = true := by decide
  have hlex := isLexeme_of_isWord (hwords text h)
  have hmore : text ∈ Vocabulary.keywords version := by
    unfold Vocabulary.keywords
    split
    · exact List.mem_cons_of_mem _ h
    · exact h
  refine ⟨⟨.name, rfl, hlex, rfl⟩, ?_⟩
  have hraw : rawKind text = .name := rawKind_code rfl hlex
  simp [spell, hraw, finalKind, nameKind, hmore]

/-- The text spells a number. -/
def IsNumeral (version : Version) (text : String) : Prop := (spell version text).kind = .number

/-- A token of the grammar is what its text spells, or a minus and a number that
its text spells one after the other. -/
theorem Token.Genuine.spells (h : t.Genuine version) :
    (IsCode version t.text ∧ unsign t.text = [t.text] ∧ t.bare = spell version t.text) ∨
      ∃ number, IsNumeral version number ∧ unsign t.text = ["-", number] ∧
        t.bare = (spell version "-").signed (spell version number) := by
  cases h with
  | plain kind hcode hcomes =>
    exact .inl ⟨⟨kind, hcode, hcomes.1, hcomes.2.1⟩, unsign_code hcode hcomes.1,
      hcomes.bare_eq hcode⟩
  | signed kind number hnumeral hlex hkind htext =>
    obtain ⟨d, tail, hd, hbegins⟩ := numeral_starts hnumeral hlex
    have hnumber : (spell version number).kind = .number := by
      have hcode : kind.isCode = true := by simp [TokenKind.isCode, hnumeral]
      rw [spell, rawKind_code hcode hlex]
      exact finalKind_numeral hnumeral
    refine .inr ⟨number, hnumber, by rw [htext, unsign_minus hd hbegins], ?_⟩
    obtain ⟨kind', text, pos⟩ := t
    simp only at hkind htext
    simp [Token.bare, Token.signed, spell, hkind, htext]
    exact hnumber.symm

/-- A token of the grammar with the text of a symbol is that operator. -/
theorem Token.Genuine.isOperator_of_text (h : t.Genuine version) {text : String}
    (hbase : text ∈ Vocabulary.baseOperators) (htext : t.text = text) :
    t.isOperator text = true := by
  have hdots : Vocabulary.ellipsis ∉ Vocabulary.baseOperators := by decide
  have hmem : text ∈ Vocabulary.allOperators :=
    List.mem_append_left _ (List.mem_append_left _ hbase)
  subst htext
  have hspell : spell version t.text = _ := spell_operator hmem fun heq => hdots (heq ▸ hbase)
  rcases h.spells with ⟨-, -, hbare⟩ | ⟨number, -, hunsign, -⟩
  · rw [hspell] at hbare
    exact Token.isOperator_iff.2 ⟨congrArg Token.kind hbare, rfl⟩
  · have hlex : IsLexeme .operator t.text.toList := by
      change Vocabulary.allOperators.contains (String.ofList t.text.toList) = true
      rw [String.ofList_toList]
      exact List.contains_iff_mem.2 hmem
    rw [unsign_operator hlex] at hunsign
    exact absurd (congrArg List.length hunsign) (by simp)

/-- A token of the grammar with the text of a keyword is that keyword. -/
theorem Token.Genuine.isKeyword_of_text (h : t.Genuine version) {text : String}
    (hmem : text ∈ Vocabulary.baseKeywords) (htext : t.text = text) : t.isKeyword text = true := by
  subst htext
  obtain ⟨⟨kind, hcode, hlex, -⟩, hspell⟩ : IsCode version t.text ∧ spell version t.text = _ :=
    spell_keyword hmem
  rcases h.spells with ⟨-, -, hbare⟩ | ⟨number, -, hunsign, -⟩
  · rw [hspell] at hbare
    exact Token.isKeyword_iff.2 ⟨congrArg Token.kind hbare, rfl⟩
  · rw [unsign_code hcode hlex] at hunsign
    exact absurd (congrArg List.length hunsign) (by simp)

/-- Whether a minus is unary after a lexeme of the grammar does not depend on
what comes before. -/
theorem foldsPast_spell {folds : Bool} {text : String} (h : IsCode version text) :
    foldsPast folds (spell version text) = foldsAfter (some (spell version text)) := by
  have hkind : ((spell version text).kind == .comment) = false := by simpa using h.kind_ne.2
  rw [foldsPast, hkind]
  rfl

/-- A text that is joined to nothing. -/
theorem joinSigns_spell {folds : Bool} {text : String} {rest : List String} (h : IsCode version text)
    (hfold : text = "-" → folds = true → ∀ n ∈ rest.head?, ¬ IsNumeral version n) :
    joinSigns folds (spell version text :: rest.map (spell version)) =
      spell version text :: joinSigns (foldsAfter (some (spell version text)))
        (rest.map (spell version)) := by
  rw [← foldsPast_spell h]
  cases hminus : (spell version text).isOperator "-" with
  | false => exact joinSigns_cons hminus
  | true =>
    cases folds with
    | false => exact joinSigns_false
    | true =>
      refine joinSigns_cons_of_head fun n hn => ?_
      rw [List.head?_map] at hn
      obtain ⟨w, hw, rfl⟩ := Option.map_eq_some_iff.1 hn
      exact hfold (Token.isOperator_iff.1 hminus).2 rfl w hw

theorem joinSigns_spell_minus {number : String} {rest : List String} (h : IsNumeral version number) :
    joinSigns true (spell version "-" :: spell version number :: rest.map (spell version)) =
      (spell version "-").signed (spell version number) ::
        joinSigns false (rest.map (spell version)) := by
  have hminus : (spell version "-").isOperator "-" = true := by
    rw [spell_operator (by decide) (by decide)]
    rfl
  exact joinSigns_minus hminus h

end

/-! ## 3. What a program is read from -/

/-- The tokens that are left without white space. -/
def keptTokens (version : Version) (raw : List Token) : List Token :=
  (raw.map (Token.final version)).filter Trim.whitespace.keeps

/-- A comment, or a lexeme of the grammar. -/
def Token.Lexical (version : Version) (t : Token) : Prop :=
  (t.kind = .comment ∧ IsRemark t.text.toList) ∨
    (t.kind ≠ .comment ∧ ∃ kind : TokenKind, kind.isCode = true ∧ t.Comes version kind)

section

variable {version : Version} {raw tokens : List Token}

/-- What is left of lexemes that the version accepts. -/
theorem keptTokens_lexical (hlex : ∀ t ∈ raw, IsLexeme t.kind t.text.toList)
    (haccepts : ∀ t ∈ raw, accepts version t.kind t.text = true) :
    ∀ t ∈ keptTokens version raw, t.Lexical version := by
  intro t ht
  obtain ⟨hmem, hkeeps⟩ := List.mem_filter.1 ht
  obtain ⟨u, hu, rfl⟩ := List.mem_map.1 hmem
  have hu' := hlex u hu
  rcases lexical_cases hu' (haccepts u hu) with ⟨hcode, -, hcomment⟩ | ⟨hremark, hkind⟩ | ⟨-, hkind⟩
  · exact .inr ⟨hcomment, u.kind, hcode, hu', haccepts u hu, rfl⟩
  · refine .inl ⟨hkind, ?_⟩
    obtain ⟨kind, text, pos⟩ := u
    cases kind with
    | blockComment => exact .inl hu'
    | lineComment => exact .inr hu'
    | _ => cases hremark
  · simp [Trim.keeps, Token.final, hkind] at hkeeps

/-- At every level but zero something is trimmed. -/
theorem Trim.ofLevel_ne_none {level : Int} (hlevel : level ≠ 0) : Trim.ofLevel level ≠ .none := by
  rw [Trim.ofLevel, if_neg hlevel]
  split <;> decide

/-- What a reduction that trims does, whatever it trims. -/
theorem reduce_eq_ok_iff {trim : Trim} (htrim : trim ≠ .none) {reduction : Reduction} :
    reduce version trim raw = .ok reduction ↔
      (∀ t ∈ raw, accepts version t.kind t.text = true) ∧
        reduction = ⟨joinSigns true ((raw.map (Token.final version)).filter trim.keeps),
          (((raw.map (Token.final version)).filter trim.keeps).foldl Kept.push Kept.empty).folded⟩ := by
  rw [← push_eq_joinSigns]
  constructor
  · intro h
    cases hm : raw.mapM (classify version (Vocabulary.keywords version)) with
    | error fault =>
      rw [reduce, hm] at h
      cases h
    | ok classified =>
      obtain ⟨hall, rfl⟩ := mapM_classify_eq_ok_iff.1 hm
      rw [reduce, hm] at h
      cases trim with
      | none => exact absurd rfl htrim
      | whitespace => exact ⟨hall, (Except.ok.inj h).symm⟩
      | comments => exact ⟨hall, (Except.ok.inj h).symm⟩
  · rintro ⟨hall, rfl⟩
    rw [reduce, mapM_classify_eq_ok_iff.2 ⟨hall, rfl⟩]
    cases trim with
    | none => exact absurd rfl htrim
    | whitespace => rfl
    | comments => rfl

/-- Reducing without white space. -/
theorem reduce_whitespace_eq_ok_iff {reduction : Reduction} :
    reduce version .whitespace raw = .ok reduction ↔
      (∀ t ∈ raw, accepts version t.kind t.text = true) ∧
        reduction = ⟨joinSigns true (keptTokens version raw),
          ((keptTokens version raw).foldl Kept.push Kept.empty).folded⟩ :=
  reduce_eq_ok_iff (by decide)

/-- Trimming comments too leaves them out of what is left. -/
theorem filter_comments_keeps (tokens : List Token) :
    tokens.filter Trim.comments.keeps =
      (tokens.filter Trim.whitespace.keeps).filter (!Leaf.isComment ·) := by
  rw [List.filter_filter]
  congr 1
  funext t
  simp [Trim.keeps, Leaf.isComment, bne, Bool.and_comm]

/-- Reducing without comments. -/
theorem reduce_comments_eq_ok_iff {reduction : Reduction} :
    reduce version .comments raw = .ok reduction ↔
      (∀ t ∈ raw, accepts version t.kind t.text = true) ∧
        reduction = ⟨joinSigns true ((keptTokens version raw).filter (!Leaf.isComment ·)),
          (((keptTokens version raw).filter (!Leaf.isComment ·)).foldl Kept.push
            Kept.empty).folded⟩ := by
  rw [reduce_eq_ok_iff (by decide), filter_comments_keeps]
  rfl

end

end LuaLayout
