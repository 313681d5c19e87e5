/-
LuaLayout.Proofs.Format.Stream — formatting keeps the token stream.

The words of the output are the tokens of the source with the separators of
tables normalized; that much is the fate of every token. It remains to join the
signs on both sides. A separator never stands between a minus and its number,
and a rewritten one leaves a minus after it as it is, so joining and normalizing
may change places.
-/
import LuaLayout.Proofs.Format.Printed

namespace LuaLayout

open Lexeme Page
open Item (split slots)

/-! ## 1. Joining signs in texts -/

/-- The texts of tokens, signs joined. -/
def joinedTexts (version : Version) (folds : Bool) (texts : List String) : List String :=
  (joinSigns folds (texts.map (spell version))).map (·.text)

section

variable {version : Version} {folds : Bool} {stack texts rest : List String} {text number : String}

theorem remaining_neutral (h : Neutral text) :
    remaining stack (text :: rest) = text :: remaining stack rest := by
  rw [remaining, fates_neutral h]
  rfl

/-- A text that is joined to nothing. -/
theorem joinedTexts_cons (h : IsCode version text)
    (hfold : text = "-" → folds = true → ∀ n ∈ rest.head?, ¬ IsNumeral version n) :
    joinedTexts version folds (text :: rest) =
      text :: joinedTexts version (foldsAfter (some (spell version text))) rest := by
  rw [joinedTexts, List.map_cons, joinSigns_spell h hfold]
  rfl

theorem joinedTexts_minus (h : IsNumeral version number) :
    joinedTexts version true ("-" :: number :: rest) =
      ("-" ++ number) :: joinedTexts version false rest := by
  rw [joinedTexts, List.map_cons, List.map_cons, joinSigns_spell_minus h]
  rfl

/-- A text that spells a number and the same with a minus are neutral. -/
theorem IsNumeral.neutral (h : IsNumeral version number) (hcode : IsCode version number) :
    Neutral number ∧ Neutral ("-" ++ number) := by
  obtain ⟨kind, hkind, hlex, haccepts⟩ := hcode
  have hgenuine : (spell version number).Genuine version := by
    refine .plain kind hkind ⟨hlex, haccepts, ?_⟩
    simp only [spell, rawKind_code hkind hlex]
  refine ⟨hgenuine.neutral_number h, ?_⟩
  have hlexical : (spell version number).Lexical version := by
    refine .inr ⟨by rw [show (spell version number).kind = .number from h]; decide, kind, hkind, ?_⟩
    exact ⟨hlex, haccepts, by simp only [spell, rawKind_code hkind hlex]⟩
  obtain ⟨kind', hnumeral, hlex'⟩ := hlexical.numeral h
  have hsigned : ((spell version "-").signed (spell version number)).Genuine version :=
    .signed kind' number hnumeral hlex' h rfl
  exact hsigned.neutral_number h

/-! ## 2. Joining and normalizing -/

/-- The head of joined texts closes a brace exactly where that of the texts does. -/
theorem head_joinedTexts (hcode : ∀ t ∈ texts, IsCode version t) :
    (joinedTexts version folds texts).head? = some "\x7d" ↔ texts.head? = some "\x7d" := by
  cases texts with
  | nil => rfl
  | cons text rest =>
    by_cases hfold : text = "-" → folds = true → ∀ n ∈ rest.head?, ¬ IsNumeral version n
    · rw [joinedTexts_cons (hcode text (by simp)) hfold]
      rfl
    · simp only [not_forall, not_not] at hfold
      obtain ⟨rfl, rfl, number, hhead, hnumber⟩ := hfold
      cases rest with
      | nil => cases hhead
      | cons n rest =>
        cases hhead
        have hneutral := (hnumber.neutral (hcode number (by simp))).2
        have hne : "-" ++ number ≠ "\x7d" := by
          intro heq
          rw [heq] at hneutral
          exact absurd hneutral (by decide)
        rw [joinedTexts_minus hnumber]
        simp [hne]

/-- A closing brace looks at nothing before it. -/
theorem joinedTexts_brace {folds' : Bool} (hcode : ∀ t ∈ texts, IsCode version t)
    (hhead : texts.head? = some "\x7d") :
    joinedTexts version folds texts = joinedTexts version folds' texts := by
  cases texts with
  | nil => cases hhead
  | cons text rest =>
    cases hhead
    have hbrace : IsCode version "\x7d" := hcode "\x7d" (by simp)
    rw [joinedTexts_cons hbrace fun h => absurd h (by decide),
      joinedTexts_cons hbrace fun h => absurd h (by decide)]

theorem remaining_brace : remaining stack ("\x7d" :: rest) = "\x7d" :: remaining stack.tail rest := by
  rw [remaining_cons]
  rfl

theorem isCode_remaining (hcode : ∀ t ∈ texts, IsCode version t) :
    ∀ t ∈ remaining stack texts, IsCode version t := by
  intro t ht
  obtain ⟨fate', hfate, rfl⟩ := List.mem_filterMap.1 ht
  rcases mem_fates hfate with hmem | rfl
  · exact hcode t hmem
  · exact isCode_comma

/-- A number at the front of what is left was at the front before. -/
theorem head_remaining (hcode : ∀ t ∈ texts, IsCode version t)
    (hhead : number ∈ (remaining stack texts).head?) (hnumber : IsNumeral version number) :
    number ∈ texts.head? := by
  cases texts with
  | nil => cases hhead
  | cons text rest =>
    rw [remaining_cons] at hhead
    cases hfate : fate stack text rest.head? with
    | none =>
      obtain ⟨rest, rfl⟩ : ∃ more, rest = "\x7d" :: more := by
        have hbrace := next_of_fate_none hfate
        cases rest with
        | nil => cases hbrace
        | cons x more => exact ⟨more, by rw [Option.some.inj hbrace]⟩
      rw [hfate, remaining_brace] at hhead
      cases hhead
      exact absurd (hnumber.neutral (hcode _ (by simp))).1 (by decide)
    | some word =>
      rw [hfate] at hhead
      cases hhead
      rcases of_fate_some hfate with rfl | ⟨-, rfl⟩
      · rfl
      · exact absurd (hnumber.neutral isCode_comma).1 (by decide)

/-- Joining signs and leaving separators out may change places. -/
theorem joinedTexts_remaining (version : Version) : ∀ (texts : List String) (folds : Bool)
    (stack : List String), (∀ t ∈ texts, IsCode version t) →
    joinedTexts version folds (remaining stack texts) =
      remaining stack (joinedTexts version folds texts)
  | [], _, _, _ => rfl
  | text :: rest, folds, stack, hcode => by
    obtain ⟨htext, hrest⟩ := List.forall_mem_cons.1 hcode
    by_cases hfold : text = "-" → folds = true → ∀ n ∈ rest.head?, ¬ IsNumeral version n
    · have hhead : (joinedTexts version (foldsAfter (some (spell version text))) rest).head? =
          some "\x7d" ↔ rest.head? = some "\x7d" := head_joinedTexts hrest
      have hnext := fate_congr stack text hhead
      have ih := joinedTexts_remaining version rest (foldsAfter (some (spell version text)))
        (track stack text) hrest
      rw [joinedTexts_cons htext hfold, remaining_cons, remaining_cons, hnext, ← ih]
      cases hfate : fate stack text rest.head? with
      | none =>
        obtain ⟨more, rfl⟩ : ∃ more, rest = "\x7d" :: more := by
          have hbrace := next_of_fate_none hfate
          cases rest with
          | nil => cases hbrace
          | cons x more => exact ⟨more, by rw [Option.some.inj hbrace]⟩
        exact joinedTexts_brace (isCode_remaining hrest) (by rw [remaining_brace]; rfl)
      | some word =>
        have hword : IsCode version word ∧ foldsAfter (some (spell version word)) =
            foldsAfter (some (spell version text)) := by
          rcases of_fate_some hfate with rfl | ⟨rfl, rfl⟩
          · exact ⟨htext, rfl⟩
          · refine ⟨isCode_comma, ?_⟩
            rw [spell_operator (by decide) (by decide), spell_operator (by decide) (by decide)]
            rfl
        have hfold' : word = "-" → folds = true →
            ∀ n ∈ (remaining (track stack text) rest).head?, ¬ IsNumeral version n := by
          intro hminus hfolds n hn hnumber
          rcases of_fate_some hfate with rfl | ⟨-, rfl⟩
          · exact hfold hminus hfolds n (head_remaining hrest hn hnumber) hnumber
          · exact absurd hminus (by decide)
        change joinedTexts version folds (word :: remaining (track stack text) rest) = _
        rw [joinedTexts_cons hword.1 hfold', hword.2]
        rfl
    · simp only [not_forall, not_not] at hfold
      obtain ⟨rfl, rfl, number, hhead, hnumber⟩ := hfold
      obtain ⟨more, rfl⟩ : ∃ more, rest = number :: more := by
        cases rest with
        | nil => cases hhead
        | cons x more => exact ⟨more, by rw [Option.some.inj hhead]⟩
      obtain ⟨hnumber', hmore⟩ := List.forall_mem_cons.1 hrest
      obtain ⟨hneutral, hsigned⟩ := hnumber.neutral hnumber'
      rw [remaining_neutral (by decide), remaining_neutral hneutral, joinedTexts_minus hnumber,
        joinedTexts_minus hnumber, remaining_neutral hsigned,
        joinedTexts_remaining version more false stack hmore]
termination_by texts => texts.length

end

/-! ## 3. The token stream -/

/-- The texts of a source without white space and comments, signs joined. -/
def codeTexts (version : Version) (source : String) : Except Fault (List String) := do
  let tokens ← tokenize source
  return (← reduce version .comments tokens).texts

section

variable {version : Version} {source text : String} {raw : List Token} {tree : Block}

theorem codeTexts_of_tokens {tokens : List Token} (h : tokenize source = .ok tokens)
    (haccepted : ∀ t ∈ tokens, accepts version t.kind t.text = true) :
    codeTexts version source = .ok ((joinSigns true
      ((keptTokens version tokens).filter (!Leaf.isComment ·))).map (·.text)) := by
  have hreduce := reduce_comments_eq_ok_iff.2 ⟨haccepted, rfl⟩
  rw [codeTexts, h]
  simp only [bind, Except.bind, hreduce]
  rfl

/-- Tokens that are known by their texts. -/
theorem map_text_joinSigns {tokens : List Token} {texts : List String} {folds : Bool}
    (h : tokens.map Token.bare = texts.map (spell version)) :
    (joinSigns folds tokens).map (·.text) = joinedTexts version folds texts := by
  rw [joinedTexts, ← h, ← map_bare_joinSigns, List.map_map]
  rfl

namespace Reads

theorem map_bare_code (h : Reads version source raw tree) :
    ((keptTokens version raw).filter (!Leaf.isComment ·)).map Token.bare =
      (wordsOf version raw).map (spell version) := by
  rw [← Leaf.map_token_ofTokens, wordsOf, List.map_map, List.map_map]
  refine List.map_congr_left fun l hl => ?_
  obtain ⟨⟨htoken, hkind⟩, -⟩ := Leaf.of_mem_leaves hl
  rcases h.lexical _ htoken with ⟨hcomment, -⟩ | ⟨-, kind, hcode, hcomes⟩
  · exact absurd hcomment hkind
  · exact hcomes.bare_eq hcode

/-- Without its comments, the output is the normalized tokens of the source. -/
theorem map_bare_output (h : Reads version source raw tree) {out : List Token}
    (hout : (keptTokens version out).map Token.bare =
      (piecesOf version raw tree).filterMap (Piece.token? version)) :
    ((keptTokens version out).filter (!Leaf.isComment ·)).map Token.bare =
      (normalize (wordsOf version raw)).map (spell version) := by
  have hwords : normalize (wordsOf version raw) = (piecesOf version raw tree).filterMap Piece.word? := by
    rw [piecesOf, filterMap_word_laid, h.slots_eq.2]
    rfl
  have hbare : ((keptTokens version out).filter (!Leaf.isComment ·)).map Token.bare =
      ((keptTokens version out).map Token.bare).filter (!Leaf.isComment ·) := by
    rw [List.filter_map]
    rfl
  rw [hwords, hbare, hout]
  exact Piece.filter_token h.separate fun t => h.isCode_text

end Reads

/-- Formatting keeps the token stream up to the separators of tables. -/
theorem codeTexts_format (h : format version source = .ok text) :
    ∃ texts, codeTexts version source = .ok texts ∧
      codeTexts version text = .ok (normalize texts) := by
  obtain ⟨raw, tree, hreads, rfl⟩ := format_eq_ok_iff.1 h
  obtain ⟨out, htokens, haccepted, hout⟩ := hreads.output
  refine ⟨_, codeTexts_of_tokens hreads.tokens hreads.accepted, ?_⟩
  rw [codeTexts_of_tokens htokens haccepted, map_text_joinSigns hreads.map_bare_code,
    map_text_joinSigns (hreads.map_bare_output hout), normalize, normalize,
    joinedTexts_remaining version _ true [] fun t => hreads.isCode_token]

/-- A table with a separator between its fields and one before the closing brace. -/
theorem codeTexts_format_table :
    format 1 "t=\x7b1;-2;\x7d" = .ok "t = \x7b\n    1,\n    -2\n\x7d\n" ∧
      ∃ texts, codeTexts 1 "t=\x7b1;-2;\x7d" = .ok texts ∧
        codeTexts 1 "t = \x7b\n    1,\n    -2\n\x7d\n" = .ok (normalize texts) :=
  ⟨by decide +kernel, codeTexts_format (by decide +kernel)⟩

end

end LuaLayout
