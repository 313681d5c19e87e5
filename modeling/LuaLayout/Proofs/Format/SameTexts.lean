/-
LuaLayout.Proofs.Format.SameTexts — what a program is formatted to depends on
the texts of its tokens alone.

The kind of a reduced token is a function of its text: blanks are white space, a
number with its minus is a number, and any other text is what it spells. So two
sources whose reductions have the same texts have the same tokens up to places.
Parsers go in step on those, and the page of a tree is known by its lexemes and
their comments; only the place of a complaint can differ. Tests that look at the
text of a token and not at its kind are sound for the same reason.
-/
import LuaLayout.Proofs.Format.Folding

namespace LuaLayout

open Lexeme

/-! ## 1. Kinds by texts -/

/-- The kind of the tokens with a text. -/
def kindOf (version : Version) (text : String) : TokenKind :=
  if text.toList.all Text.isBlank then .whitespace
  else if unsign text = [text] then (spell version text).kind
  else .number

section

variable {version : Version} {source : String} {raw : List Token} {t : Token}

/-- A text with a visible beginning. -/
theorem kindOf_visible {text : String} {d : Char} {rest : List Char} (htext : text.toList = d :: rest)
    (hd : Text.isBlank d = false) : kindOf version text =
      if unsign text = [text] then (spell version text).kind else .number := by
  rw [kindOf, htext, List.all_cons, hd]
  rfl

theorem Token.Genuine.kind_eq (h : t.Genuine version) : t.kind = kindOf version t.text := by
  obtain ⟨d, rest, htext, hd⟩ := h.starts
  rw [kindOf_visible htext hd]
  rcases h.spells with ⟨-, hplain, hbare⟩ | ⟨number, hnumeral, hsigned, hbare⟩
  · rw [if_pos hplain, ← hbare, Token.bare_kind]
  · have hkind := congrArg Token.kind hbare
    rw [if_neg (by rw [hsigned]; simp)]
    exact hkind.trans hnumeral

theorem kind_eq_of_remark (hkind : t.kind = .comment) (h : IsRemark t.text.toList) :
    t.kind = kindOf version t.text := by
  obtain ⟨tail, htext⟩ : ∃ tail, t.text.toList = '-' :: '-' :: tail := by
    rcases h with ⟨body, hbody, -⟩ | ⟨body, hbody, -⟩ <;> exact ⟨body, hbody⟩
  have hplain : unsign t.text = [t.text] := by
    rw [unsign, htext]
    rfl
  rw [kindOf_visible htext (by decide), if_pos hplain, spell_remark h, hkind]

theorem kind_eq_of_whitespace (hkind : t.kind = .whitespace)
    (h : ∀ x ∈ t.text.toList, Text.isBlank x = true) : t.kind = kindOf version t.text := by
  rw [kindOf, if_pos (List.all_eq_true.2 h), hkind]

/-- An accepted lexeme has the kind that its text tells. -/
theorem kind_eq_of_final (hlex : IsLexeme t.kind t.text.toList)
    (haccepted : accepts version t.kind t.text = true) :
    (t.final version).kind = kindOf version (t.final version).text := by
  rcases lexical_cases hlex haccepted with ⟨hcode, -⟩ | ⟨hremark, hkind⟩ | ⟨hspace, hkind⟩
  · have hgenuine : (t.final version).Genuine version := .plain t.kind hcode ⟨hlex, haccepted, rfl⟩
    exact hgenuine.kind_eq
  · refine kind_eq_of_remark hkind ?_
    obtain ⟨kind, text, pos⟩ := t
    cases kind with
    | blockComment => exact .inl hlex
    | lineComment => exact .inr hlex
    | _ => cases hremark
  · rw [hspace] at hlex
    exact kind_eq_of_whitespace hkind hlex.2

/-- The kind of a reduced token is a function of its text. -/
theorem kind_eq_of_reduce {trim : Trim} {reduction : Reduction} (htokens : tokenize source = .ok raw)
    (hreduce : reduce version trim raw = .ok reduction) :
    ∀ t ∈ reduction.tokens, t.kind = kindOf version t.text := by
  have hlexeme := isLexeme_of_tokenize htokens
  have hfinal : (∀ t ∈ raw, accepts version t.kind t.text = true) →
      ∀ t ∈ raw.map (Token.final version), t.kind = kindOf version t.text := by
    intro haccepted t ht
    obtain ⟨u, hu, rfl⟩ := List.mem_map.1 ht
    exact kind_eq_of_final (hlexeme u hu) (haccepted u hu)
  -- a joined token is genuine, and any other was there before
  have hjoined : ∀ {tokens : List Token}, (∀ t ∈ tokens, t.Lexical version) →
      ∀ t ∈ joinSigns true tokens, t.kind = kindOf version t.text := by
    intro tokens hlex t ht
    rcases genuine_of_mem_joinSigns hlex ht with ⟨hkind, hremark⟩ | ⟨-, hgenuine⟩
    · exact kind_eq_of_remark hkind hremark
    · exact hgenuine.kind_eq
  cases trim with
  | none =>
    intro t ht
    cases hclassified : raw.mapM (classify version (Vocabulary.keywords version)) with
    | error fault =>
      rw [reduce, hclassified] at hreduce
      cases hreduce
    | ok classified =>
      obtain ⟨haccepted, rfl⟩ := mapM_classify_eq_ok_iff.1 hclassified
      rw [reduce, hclassified] at hreduce
      obtain rfl := Except.ok.inj hreduce
      exact hfinal haccepted t ht
  | whitespace =>
    obtain ⟨haccepted, rfl⟩ := reduce_whitespace_eq_ok_iff.1 hreduce
    exact hjoined (keptTokens_lexical hlexeme haccepted)
  | comments =>
    obtain ⟨haccepted, rfl⟩ := reduce_comments_eq_ok_iff.1 hreduce
    exact hjoined fun t ht => keptTokens_lexical hlexeme haccepted t (List.mem_filter.1 ht).1

end

/-! ## 2. Tokens that differ in their places -/

/-- Tokens that differ in their places only have the same kind and text. -/
theorem faithful_bare : Token.Faithful fun t u => t.bare = u.bare where
  kind h := (Token.bare_eq_iff.1 h).1
  text h := (Token.bare_eq_iff.1 h).2

section

variable {tokens more : List Token}

theorem ofTokens_of_bare (h : more.map Token.bare = tokens.map Token.bare) :
    (Leaf.ofTokens more).1.map (·.text) = (Leaf.ofTokens tokens).1.map (·.text) ∧
      (Leaf.ofTokens more).2.map Leaf.sheet = (Leaf.ofTokens tokens).2.map Leaf.sheet ∧
      Leaf.Correspond (fun t u => t.bare = u.bare) (Leaf.ofTokens tokens).2
        (Leaf.ofTokens more).2 := by
  have hbare : ∀ tokens : List Token,
      (Leaf.ofTokens (tokens.map Token.bare)).1.map (·.text) =
          (Leaf.ofTokens tokens).1.map (·.text) ∧
        (Leaf.ofTokens (tokens.map Token.bare)).2.map (·.token) =
          (Leaf.ofTokens tokens).2.map (·.token.bare) := by
    intro tokens
    constructor
    · rw [(ofTokens_bare tokens).1, List.map_map]
      rfl
    · have hcomment : (!Leaf.isComment ·) ∘ Token.bare = (!Leaf.isComment ·) := rfl
      have htokens := congrArg (List.map Token.bare) (Leaf.map_token_ofTokens tokens)
      rw [List.map_map] at htokens
      rw [Leaf.map_token_ofTokens, List.filter_map, hcomment, ← htokens]
      rfl
  refine ⟨?_, ?_, ?_⟩
  · rw [← (hbare more).1, h, (hbare tokens).1]
  · rw [← (ofTokens_bare more).2, h, (ofTokens_bare tokens).2]
  · have hleaves : (Leaf.ofTokens tokens).2.map (·.token.bare) =
        (Leaf.ofTokens more).2.map (·.token.bare) := by
      rw [← (hbare tokens).2, ← h, (hbare more).2]
    rw [← List.forall₂_eq_eq_eq, List.forall₂_map_left_iff, List.forall₂_map_right_iff] at hleaves
    exact hleaves

/-- Lexemes are known by the sheets of their leaves. -/
theorem lexemesOf_eq (leaves : List Leaf) :
    lexemesOf leaves = (leaves.map Leaf.sheet).flatMap fun s => splitWord s.1 s.2 := by
  rw [lexemesOf, List.flatMap_map]
  rfl

/-- The outcomes are the same up to the place of a complaint. -/
inductive SameOutcome : Except Fault String → Except Fault String → Prop
  | text (text : String) : SameOutcome (.ok text) (.ok text)
  | complaint (what : Complaint) (near : Option String) (pos pos' : Position) :
    SameOutcome (.error (.grammar what near pos)) (.error (.grammar what near pos'))

/-- Programs whose tokens differ in their places only. -/
theorem formatTokens_of_bare {version : Version} (h : more.map Token.bare = tokens.map Token.bare)
    (hspells : SpellsOut version (Leaf.ofTokens tokens).2)
    (hspells' : SpellsOut version (Leaf.ofTokens more).2) :
    SameOutcome (formatTokens .program tokens) (formatTokens .program more) := by
  obtain ⟨hlead, hsheets, hleaves⟩ := ofTokens_of_bare h
  rcases formatTokens_agree faithful_bare hleaves with
    ⟨⟨text, htext⟩, -⟩ | ⟨what, near, near', hnear, hfault, hfault'⟩
  · have hlexemes : lexemesOf (Leaf.ofTokens more).2 = lexemesOf (Leaf.ofTokens tokens).2 := by
      rw [lexemesOf_eq, lexemesOf_eq, hsheets]
    rw [htext, formatTokens_of_lexemes hspells hspells' hlead hlexemes htext]
    exact .text text
  · rw [hfault, hfault']
    cases hnear with
    | none => exact .complaint what none _ _
    | some htu =>
      simp only [faultIn, Session.complaint, faithful_bare.text htu]
      exact .complaint what _ _ _

end

/-! ## 3. Sources with the same texts -/

/-- The result depends only on the texts that are kept: two sources whose
reductions without white space have the same texts are formatted to the same
text, or both fail with the same complaint near the same text. And at one
version tokens with the same text, whatever sources they come from and however
those are reduced, have the same kind. -/
theorem format_texts (version : Version) :
    (∀ source source' raw raw' reduction reduction', tokenize source = .ok raw →
      tokenize source' = .ok raw' → reduce version .whitespace raw = .ok reduction →
      reduce version .whitespace raw' = .ok reduction' → reduction.texts = reduction'.texts →
      SameOutcome (format version source) (format version source')) ∧
    (∀ source source' raw raw' trim trim' reduction reduction', tokenize source = .ok raw →
      tokenize source' = .ok raw' → reduce version trim raw = .ok reduction →
      reduce version trim' raw' = .ok reduction' →
      ∀ t ∈ reduction.tokens, ∀ u ∈ reduction'.tokens, t.text = u.text → t.kind = u.kind) := by
  have hkinds : ∀ source source' raw raw' trim trim' reduction reduction', tokenize source = .ok raw →
      tokenize source' = .ok raw' → reduce version trim raw = .ok reduction →
      reduce version trim' raw' = .ok reduction' →
      ∀ t ∈ reduction.tokens, ∀ u ∈ reduction'.tokens, t.text = u.text → t.kind = u.kind := by
    intro _ _ _ _ _ _ _ _ htokens htokens' hreduce hreduce' t ht u hu htext
    rw [kind_eq_of_reduce htokens hreduce t ht, kind_eq_of_reduce htokens' hreduce' u hu, htext]
  refine ⟨?_, hkinds⟩
  intro source source' raw raw' reduction reduction' htokens htokens' hreduce hreduce' htexts
  have hformat : ∀ {source raw reduction}, tokenize source = .ok raw →
      reduce version .whitespace raw = .ok reduction →
      format version source = formatTokens .program reduction.tokens ∧
        SpellsOut version (Leaf.ofTokens reduction.tokens).2 := by
    intro source raw reduction htokens hreduce
    obtain ⟨haccepted, hreduction⟩ := reduce_whitespace_eq_ok_iff.1 hreduce
    constructor
    · rw [format_eq, htokens]
      simp only [bind, Except.bind, hreduce]
    · rw [hreduction]
      exact spellsOut_joinSigns (keptTokens_lexical (isLexeme_of_tokenize htokens) haccepted)
  have hspelled : ∀ {source raw reduction}, tokenize source = .ok raw →
      reduce version .whitespace raw = .ok reduction → reduction.tokens.map Token.bare =
        reduction.texts.map fun text => ⟨kindOf version text, text, Position.start⟩ := by
    intro source raw reduction htokens hreduce
    rw [Reduction.texts, List.map_map]
    refine List.map_congr_left fun t ht => ?_
    rw [Token.bare, kind_eq_of_reduce htokens hreduce t ht]
    rfl
  have hbare : reduction'.tokens.map Token.bare = reduction.tokens.map Token.bare := by
    rw [hspelled htokens hreduce, hspelled htokens' hreduce', htexts]
  obtain ⟨heq, hspells⟩ := hformat htokens hreduce
  obtain ⟨heq', hspells'⟩ := hformat htokens' hreduce'
  rw [heq, heq']
  exact formatTokens_of_bare hbare hspells hspells'

/-- The texts of a reduction are those of some tokens. -/
theorem exists_reduction_of_texts (version : Version) (source : String) (texts : List String)
    (h : ((tokenize source).bind (reduce version .whitespace)).map Reduction.texts = .ok texts) :
    ∃ raw reduction, tokenize source = .ok raw ∧ reduce version .whitespace raw = .ok reduction ∧
      reduction.texts = texts := by
  cases htokens : tokenize source with
  | error fault =>
    rw [htokens] at h
    cases h
  | ok raw =>
    rw [htokens] at h
    cases hreduce : reduce version .whitespace raw with
    | error fault =>
      simp only [Except.bind, hreduce] at h
      cases h
    | ok reduction =>
      simp only [Except.bind, hreduce] at h
      exact ⟨raw, reduction, rfl, hreduce, Except.ok.inj h⟩

/-- The same texts on two lines and on one: first no program, whose complaints differ
in their place only, then a program. -/
theorem format_texts_lines :
    (∃ raw raw' reduction reduction', tokenize "x=\n- 5)" = .ok raw ∧
      tokenize "x = -5 )" = .ok raw' ∧ reduce 1 .whitespace raw = .ok reduction ∧
      reduce 1 .whitespace raw' = .ok reduction' ∧ reduction.texts = ["x", "=", "-5", ")"] ∧
      reduction.texts = reduction'.texts ∧
      SameOutcome (format 1 "x=\n- 5)") (format 1 "x = -5 )") ∧
      format 1 "x=\n- 5)" = .error (.grammar .unexpectedSymbol (some ")") ⟨2, 4⟩) ∧
      format 1 "x = -5 )" = .error (.grammar .unexpectedSymbol (some ")") ⟨1, 8⟩) ∧
      ∀ t ∈ reduction.tokens, ∀ u ∈ reduction'.tokens, t.text = u.text → t.kind = u.kind) ∧
    ∃ raw raw' reduction reduction', tokenize "x=\n- 5" = .ok raw ∧
      tokenize "x = -5" = .ok raw' ∧ reduce 1 .whitespace raw = .ok reduction ∧
      reduce 1 .whitespace raw' = .ok reduction' ∧ reduction.texts = ["x", "=", "-5"] ∧
      reduction.texts = reduction'.texts ∧
      SameOutcome (format 1 "x=\n- 5") (format 1 "x = -5") ∧
      format 1 "x=\n- 5" = .ok "x = -5\n" ∧ format 1 "x = -5" = .ok "x = -5\n" ∧
      ∀ t ∈ reduction.tokens, ∀ u ∈ reduction'.tokens, t.text = u.text → t.kind = u.kind := by
  constructor
  · obtain ⟨raw, reduction, htokens, hreduce, htexts⟩ :=
      exists_reduction_of_texts 1 "x=\n- 5)" ["x", "=", "-5", ")"] (by decide +kernel)
    obtain ⟨raw', reduction', htokens', hreduce', htexts'⟩ :=
      exists_reduction_of_texts 1 "x = -5 )" ["x", "=", "-5", ")"] (by decide +kernel)
    have hsame := htexts.trans htexts'.symm
    exact ⟨raw, raw', reduction, reduction', htokens, htokens', hreduce, hreduce', htexts, hsame,
      (format_texts 1).1 _ _ _ _ _ _ htokens htokens' hreduce hreduce' hsame, by decide +kernel,
      by decide +kernel, (format_texts 1).2 _ _ _ _ _ _ _ _ htokens htokens' hreduce hreduce'⟩
  · obtain ⟨raw, reduction, htokens, hreduce, htexts⟩ :=
      exists_reduction_of_texts 1 "x=\n- 5" ["x", "=", "-5"] (by decide +kernel)
    obtain ⟨raw', reduction', htokens', hreduce', htexts'⟩ :=
      exists_reduction_of_texts 1 "x = -5" ["x", "=", "-5"] (by decide +kernel)
    have hsame := htexts.trans htexts'.symm
    exact ⟨raw, raw', reduction, reduction', htokens, htokens', hreduce, hreduce', htexts, hsame,
      (format_texts 1).1 _ _ _ _ _ _ htokens htokens' hreduce hreduce' hsame, by decide +kernel,
      by decide +kernel, (format_texts 1).2 _ _ _ _ _ _ _ _ htokens htokens' hreduce hreduce'⟩

end LuaLayout
