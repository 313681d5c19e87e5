/-
LuaLayout.Proofs.Reduction.Relexed — reduced texts are lexed back to themselves.

What a reduction gives can be written down, one text on a line, and read again.
Every lexeme ends before a line end and at the end of the text, so a line is cut
into its lexemes whatever the others hold: one lexeme, or a minus and a number
that were joined. What is left of the tokens without white space is what was
left the first time, sign by sign and comment by comment, and so the same signs
are joined again and no others.

A joined number is the one text that is cut in two, and it can be because no
other lexeme begins with a minus before a number.
-/
import Mathlib.Data.List.Basic
import LuaLayout.Proofs.Page.Separate

namespace LuaLayout

open Lexeme

/-- The texts that a source is reduced to. -/
def reducedTexts (version : Version) (trim : Trim) (source : String) :
    Except Fault (List String) := do
  let tokens ← tokenize source
  let reduction ← reduce version trim tokens
  return reduction.texts

/-! ## 1. Texts and their lexemes -/

section

variable {version : Version} {folds : Bool} {tokens : List Token} {t : Token}

theorem unsign_remark {text : String} (h : IsRemark text.toList) : unsign text = [text] := by
  obtain ⟨rest, hrest⟩ := Piece.remark_starts h
  have hbegins : beginsNumber '-' = false := by decide
  simp only [unsign, hrest, hbegins, Bool.false_eq_true, if_false]

/-- What is left of a program is what its text spells. -/
theorem Token.Lexical.spells (h : t.Lexical version) :
    unsign t.text = [t.text] ∧ t.bare = spell version t.text := by
  rcases h with ⟨hkind, hremark⟩ | ⟨-, kind, hcode, hcomes⟩
  · have hspelled : (spell version t.text).kind = .comment := spell_remark hremark
    exact ⟨unsign_remark hremark, Token.bare_eq_iff.2 ⟨hkind.trans hspelled.symm, rfl⟩⟩
  · exact ⟨unsign_code hcode hcomes.1, hcomes.bare_eq hcode⟩

/-- The class of a text in front of a line end is one that the version accepts. -/
theorem Token.Lexical.accepts (h : t.Lexical version) :
    LuaLayout.accepts version (rawKind t.text) t.text = true := by
  rcases h with ⟨-, hremark⟩ | ⟨-, kind, hcode, hlex, haccepts, -⟩
  · exact accepts_remark (isRemark_rawKind hremark).1
  · exact IsCode.accepts ⟨kind, hcode, hlex, haccepts⟩

/-- What is left of a program is cut off again before a line end and at the end. -/
theorem Token.Lexical.first? (h : t.Lexical version) {r : List Char}
    (hr : ∀ c ∈ r.head?, c = '\n') :
    Lexeme.first? (t.text.toList ++ r) = some (rawKind t.text, .found t.text.toList r) := by
  rcases h with ⟨-, hremark⟩ | ⟨-, kind, hcode, hlex, -⟩
  · obtain ⟨hkind, hlex, hfollows⟩ := isRemark_rawKind hremark
    exact first?_append (TokenKind.isRemark_visible hkind) hlex fun c hc => by rwa [hr c hc]
  · rw [rawKind_code hcode hlex]
    refine first?_append (TokenKind.isCode_visible hcode) hlex fun c hc => ?_
    rw [hr c hc]
    exact follows_line hcode

/-- What is left of a program begins with a character that can be seen. -/
theorem Token.Lexical.starts (h : t.Lexical version) :
    ∃ d rest, t.text.toList = d :: rest ∧ Text.isBlank d = false := by
  rcases h with ⟨-, hremark⟩ | ⟨-, kind, hcode, hlex, -⟩
  · obtain ⟨rest, hrest⟩ := Piece.remark_starts hremark
    exact ⟨'-', '-' :: rest, hrest, by decide⟩
  · exact code_starts hcode hlex

/-- The texts of joined tokens are those of the tokens when signs are taken off. -/
theorem unsign_joinSigns (hlex : ∀ u ∈ tokens, u.Lexical version) :
    ((joinSigns folds tokens).map (·.text)).flatMap unsign = tokens.map (·.text) := by
  fun_induction joinSigns folds tokens with
  | case1 folds => rfl
  | case2 folds u => simp [(hlex u (by simp)).spells.1]
  | case3 folds u n rest hfold ih =>
    simp only [Bool.and_eq_true, beq_iff_eq, Token.isOperator_iff] at hfold
    obtain ⟨⟨hnumber, -, hminus⟩, -⟩ := hfold
    obtain ⟨kind, hnumeral, hn⟩ := (hlex n (by simp)).numeral hnumber
    obtain ⟨d, tail, hd, hbegins⟩ := numeral_starts hnumeral hn
    have hunsign : unsign (u.signed n).text = ["-", n.text] := unsign_minus hd hbegins
    simp [hunsign, hminus, ih fun v hv => hlex v (by simp [hv])]
  | case4 folds u n rest hfold ih =>
    rw [List.map_cons, List.flatMap_cons, (hlex u (by simp)).spells.1,
      ih fun v hv => hlex v (List.mem_cons_of_mem _ hv)]
    rfl

end

/-! ## 2. Lines and their segments -/

/-- The lexemes of a text. -/
def lexedText (text : String) : List Segment := (unsign text).map fun w => ⟨rawKind w, w.toList⟩

/-- The lexemes of texts that stand on lines of their own, with the line ends. -/
def lexedLines (texts : List String) : List Segment :=
  [⟨.whitespace, ['\n']⟩].intercalate (texts.map lexedText)

theorem lexedLines_cons (text next : String) (rest : List String) :
    lexedLines (text :: next :: rest) =
      lexedText text ++ ⟨.whitespace, ['\n']⟩ :: lexedLines (next :: rest) := by
  simp [lexedLines, List.intercalate_cons_cons]

theorem mem_lexedLines {texts : List String} {s : Segment} (h : s ∈ lexedLines texts) :
    s = ⟨.whitespace, ['\n']⟩ ∨ ∃ w ∈ texts.flatMap unsign, s = ⟨rawKind w, w.toList⟩ := by
  have hword : ∀ {text : String}, s ∈ lexedText text →
      ∃ w ∈ unsign text, s = ⟨rawKind w, w.toList⟩ := by
    intro text hs
    obtain ⟨w, hw, rfl⟩ := List.mem_map.1 hs
    exact ⟨w, hw, rfl⟩
  induction texts with
  | nil => cases h
  | cons text rest ih =>
    cases rest with
    | nil => simpa [lexedLines] using .inr (hword (by simpa [lexedLines] using h))
    | cons next rest =>
      rw [lexedLines_cons, List.mem_append, List.mem_cons] at h
      rcases h with h | h | h
      · obtain ⟨w, hw, heq⟩ := hword h
        exact .inr ⟨w, List.mem_append_left _ hw, heq⟩
      · exact .inl h
      · exact (ih h).imp_right fun ⟨w, hw, heq⟩ => ⟨w, List.mem_append_right _ hw, heq⟩

/-- The text is cut into its lexemes before a line end and at the end. -/
structure Relexes (text : String) : Prop where
  cuts : ∀ r : List Char, (∀ c ∈ r.head?, c = '\n') → Cuts (text.toList ++ r) (lexedText text) r
  starts : ∃ d rest, text.toList = d :: rest ∧ Text.isBlank d = false

section

variable {version : Version} {folds : Bool} {tokens : List Token} {t : Token}

theorem Token.Lexical.relexes (h : t.Lexical version) : Relexes t.text := by
  refine ⟨fun r hr => ?_, h.starts⟩
  rw [lexedText, h.spells.1]
  exact .cons (h.first? hr) (.nil r)

/-- A number with its minus is cut into the two. -/
theorem relexes_signed {minus number : Token} (h : number.Lexical version)
    (hkind : number.kind = .number) : Relexes (minus.signed number).text := by
  obtain ⟨kind, hnumeral, hlex⟩ := h.numeral hkind
  obtain ⟨d, tail, hd, hbegins⟩ := numeral_starts hnumeral hlex
  have htext : (minus.signed number).text.toList = '-' :: number.text.toList := by
    rw [Token.signed, String.toList_append]
    rfl
  have hunsign : unsign (minus.signed number).text = ["-", number.text] := unsign_minus hd hbegins
  refine ⟨fun r hr => ?_, '-', _, htext, by decide⟩
  have hparts : Parts ['-'] d := parts_minus fun heq => absurd (heq ▸ hbegins) (by decide)
  have hsymbol : IsLexeme .operator ['-'] := isLexeme_operator.2 (by decide)
  have hminus : rawKind "-" = .operator := rawKind_code rfl hsymbol
  have hsign : Lexeme.first? (['-'] ++ (number.text.toList ++ r)) =
      some (.operator, .found ['-'] (number.text.toList ++ r)) :=
    first?_append (by decide) hsymbol (by simpa [hd] using (show Follows .operator ['-'] d from hparts))
  rw [lexedText, hunsign, htext, List.map_cons, hminus]
  exact .cons hsign (.cons (h.first? hr) (.nil r))

/-- Every text of a reduction is cut into its lexemes. -/
theorem relexes_of_mem_joinSigns (hlex : ∀ u ∈ tokens, u.Lexical version)
    (h : t ∈ joinSigns folds tokens) : Relexes t.text := by
  rcases mem_joinSigns h with hmem | ⟨minus, -, number, hnumber, -, hkind, rfl⟩
  · exact (hlex t hmem).relexes
  · exact relexes_signed (hlex number hnumber) hkind

end

/-- Lines are cut into their lexemes. -/
theorem cuts_lexedLines {texts : List String} (h : ∀ text ∈ texts, Relexes text) :
    Cuts ("\n".intercalate texts).toList (lexedLines texts) [] := by
  rw [String.toList_intercalate]
  induction texts with
  | nil => exact .nil []
  | cons text rest ih =>
    have hfirst := h text (by simp)
    cases rest with
    | nil => simpa [lexedLines] using hfirst.cuts [] (by simp)
    | cons next rest =>
      obtain ⟨d, tail, hd, hblank⟩ := (h next (by simp)).starts
      have hlater := ih fun t ht => h t (List.mem_cons_of_mem _ ht)
      have hline : Cuts ('\n' :: ['\n'].intercalate ((next :: rest).map String.toList))
          (⟨.whitespace, ['\n']⟩ :: lexedLines (next :: rest)) [] := by
        have hvisible : ∀ x ∈ (['\n'].intercalate ((next :: rest).map String.toList)).head?,
            Text.isBlank x = false := by
          cases rest <;> simpa [hd] using hblank
        exact .cons (first?_whitespace (b := ['\n']) (by simp) (by simp) hvisible) hlater
      rw [lexedLines_cons, List.map_cons, List.map_cons, List.intercalate_cons_cons,
        List.append_assoc]
      exact (hfirst.cuts _ (by simp)).append hline

/-- Without white space, lines are their lexemes. -/
theorem filter_lexedLines (version : Version) {trim : Trim} (htrim : trim ≠ .none)
    (texts : List String) :
    ((lexedLines texts).map (Segment.spelled version)).filter trim.keeps =
      ((texts.flatMap unsign).map (spell version)).filter trim.keeps := by
  have hspelled : ∀ text : String, (lexedText text).map (Segment.spelled version) =
      (unsign text).map (spell version) := by
    intro text
    rw [lexedText, List.map_map]
    exact List.map_congr_left fun w _ => Segment.spelled_rawKind version w
  have hline : trim.keeps (Segment.spelled version ⟨.whitespace, ['\n']⟩) = false := by
    cases trim with
    | none => exact absurd rfl htrim
    | whitespace => rfl
    | comments => rfl
  induction texts with
  | nil => rfl
  | cons text rest ih =>
    cases rest with
    | nil => simp [lexedLines, hspelled]
    | cons next rest =>
      rw [lexedLines_cons, List.map_append, List.map_cons, List.filter_append,
        List.filter_cons_of_neg (by simp [hline]), ih, hspelled, ← List.filter_append,
        ← List.map_append, ← List.flatMap_cons]

/-! ## 3. Reducing twice -/

section

variable {version : Version} {trim : Trim} {raw : List Token}

theorem Trim.keeps_bare (trim : Trim) (t : Token) : trim.keeps t.bare = trim.keeps t := rfl

/-- White space is left by no trimming. -/
theorem Trim.keeps_visible (htrim : trim ≠ .none) {t : Token} (h : trim.keeps t = true) :
    Trim.whitespace.keeps t = true := by
  cases trim with
  | none => exact absurd rfl htrim
  | whitespace => exact h
  | comments => exact (Bool.and_eq_true_iff.1 h).1

/-- What is left of the lines is what was left of the tokens that they are made
from, but for the places. -/
theorem map_bare_relexed (htrim : trim ≠ .none) {left : List Token}
    (hlex : ∀ t ∈ left, t.Lexical version) (hkeeps : ∀ t ∈ left, trim.keeps t = true)
    (p : Position) :
    (((Segment.place p (lexedLines ((joinSigns true left).map (·.text)))).map
      (Token.final version)).filter trim.keeps).map Token.bare = left.map Token.bare := by
  have hbare : trim.keeps ∘ Token.bare = trim.keeps := funext trim.keeps_bare
  have hspells : (left.map (·.text)).map (spell version) = left.map Token.bare := by
    rw [List.map_map]
    exact List.map_congr_left fun t ht => ((hlex t ht).spells.2).symm
  calc _ = (((Segment.place p (lexedLines ((joinSigns true left).map (·.text)))).map
        fun t => (t.final version).bare)).filter trim.keeps := by
        rw [← hbare, ← List.filter_map, List.map_map, hbare]
        rfl
    _ = (left.map Token.bare).filter trim.keeps := by
        rw [Piece.map_final_place, filter_lexedLines version htrim, unsign_joinSigns hlex, hspells]
    _ = left.map Token.bare := by
        rw [List.filter_eq_self]
        intro t ht
        obtain ⟨u, hu, rfl⟩ := List.mem_map.1 ht
        exact hkeeps u hu

/-- The version accepts the lexemes of the lines. -/
theorem accepts_lexedLines {left : List Token} (hlex : ∀ t ∈ left, t.Lexical version) :
    ∀ s ∈ lexedLines ((joinSigns true left).map (·.text)),
      accepts version s.kind (String.ofList s.chars) = true := by
  intro s hs
  rcases mem_lexedLines hs with rfl | ⟨w, hw, rfl⟩
  · rfl
  · rw [unsign_joinSigns hlex] at hw
    obtain ⟨t, ht, rfl⟩ := List.mem_map.1 hw
    rw [String.ofList_toList]
    exact (hlex t ht).accepts

theorem map_text_of_map_bare {tokens more : List Token}
    (h : tokens.map Token.bare = more.map Token.bare) :
    (joinSigns true tokens).map (·.text) = (joinSigns true more).map (·.text) := by
  have hjoined : (joinSigns true tokens).map Token.bare = (joinSigns true more).map Token.bare := by
    rw [map_bare_joinSigns, map_bare_joinSigns, h]
  have htexts := congrArg (List.map (·.text)) hjoined
  rwa [List.map_map, List.map_map] at htexts

/-- What is left of a source that has reduced texts. -/
theorem reducedTexts_eq_ok_iff (htrim : trim ≠ .none) {source : String} {texts : List String} :
    reducedTexts version trim source = .ok texts ↔
      ∃ raw, tokenize source = .ok raw ∧ (∀ t ∈ raw, accepts version t.kind t.text = true) ∧
        texts = (joinSigns true ((raw.map (Token.final version)).filter trim.keeps)).map (·.text) := by
  constructor
  · intro h
    cases hraw : tokenize source with
    | error fault =>
      rw [reducedTexts, hraw] at h
      cases h
    | ok raw =>
      cases hreduce : reduce version trim raw with
      | error fault =>
        rw [reducedTexts, hraw] at h
        simp only [bind, Except.bind, hreduce, reduceCtorEq] at h
      | ok reduction =>
        obtain ⟨haccepts, rfl⟩ := (reduce_eq_ok_iff htrim).1 hreduce
        rw [reducedTexts, hraw] at h
        simp only [bind, Except.bind, hreduce] at h
        exact ⟨raw, rfl, haccepts, (Except.ok.inj h).symm⟩
  · rintro ⟨raw, hraw, haccepts, rfl⟩
    rw [reducedTexts, hraw]
    simp only [bind, Except.bind, (reduce_eq_ok_iff htrim).2 ⟨haccepts, rfl⟩]
    rfl

end

/-- Reducing the reduced texts, each on a line of its own, gives them again. -/
theorem reducedTexts_lines {version : Version} {level : Int} {source : String}
    {texts : List String} (hlevel : level ≠ 0)
    (h : reducedTexts version (.ofLevel level) source = .ok texts) :
    reducedTexts version (.ofLevel level) ("\n".intercalate texts) = .ok texts := by
  have htrim := Trim.ofLevel_ne_none hlevel
  obtain ⟨raw, hraw, haccepts, rfl⟩ := (reducedTexts_eq_ok_iff htrim).1 h
  have hlex : ∀ t ∈ (raw.map (Token.final version)).filter (Trim.ofLevel level).keeps,
      t.Lexical version := by
    intro t ht
    obtain ⟨hmem, hkeeps⟩ := List.mem_filter.1 ht
    exact keptTokens_lexical (isLexeme_of_tokenize hraw) haccepts t
      (List.mem_filter.2 ⟨hmem, Trim.keeps_visible htrim hkeeps⟩)
  have hkeeps : ∀ t ∈ (raw.map (Token.final version)).filter (Trim.ofLevel level).keeps,
      (Trim.ofLevel level).keeps t = true := fun t ht => (List.mem_filter.1 ht).2
  generalize (raw.map (Token.final version)).filter (Trim.ofLevel level).keeps = left at hlex hkeeps
  have hrelexes : ∀ text ∈ (joinSigns true left).map (·.text), Relexes text := by
    intro text htext
    obtain ⟨t, ht, rfl⟩ := List.mem_map.1 htext
    exact relexes_of_mem_joinSigns hlex ht
  have htokens := tokenize_eq_ok_iff.2 ⟨_, cuts_lexedLines hrelexes, rfl⟩
  refine (reducedTexts_eq_ok_iff htrim).2 ⟨_, htokens, ?_, ?_⟩
  · exact accepts_place (accepts_lexedLines hlex) _
  · exact (map_text_of_map_bare (map_bare_relexed htrim hlex hkeeps _)).symm

/-- A minus in front of a comment stays alone, one behind a comment is joined. -/
theorem reducedTexts_lines_signs :
    (1 : Int) ≠ 0 ∧
    reducedTexts 1 (.ofLevel 1) "- --a\n- 5.--[[b]]-\t6(- --[\n7" =
      .ok ["-", "--a", "-5.", "--[[b]]", "-", "6", "(", "-", "--[", "7"] ∧
    reducedTexts 1 (.ofLevel 1) "-\n--a\n-5.\n--[[b]]\n-\n6\n(\n-\n--[\n7" =
      .ok ["-", "--a", "-5.", "--[[b]]", "-", "6", "(", "-", "--[", "7"] := by
  have hlevel : (1 : Int) ≠ 0 := by decide
  have hfirst : reducedTexts 1 (.ofLevel 1) "- --a\n- 5.--[[b]]-\t6(- --[\n7" =
      .ok ["-", "--a", "-5.", "--[[b]]", "-", "6", "(", "-", "--[", "7"] := by decide +kernel
  have hlines : "\n".intercalate ["-", "--a", "-5.", "--[[b]]", "-", "6", "(", "-", "--[", "7"] =
      "-\n--a\n-5.\n--[[b]]\n-\n6\n(\n-\n--[\n7" := by decide +kernel
  refine ⟨hlevel, hfirst, ?_⟩
  rw [← hlines]
  exact reducedTexts_lines hlevel hfirst

end LuaLayout
