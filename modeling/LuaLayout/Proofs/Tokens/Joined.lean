/-
LuaLayout.Proofs.Tokens.Joined — the leaves that joined tokens make.

Joining a number to its minus takes no comment away and adds none: the two stand
side by side, so the leaf of the two carries the comments after the number. The
lexemes of the leaves, each with the comments after it, are those of the tokens
before they were joined.
-/
import LuaLayout.Layout
import LuaLayout.Proofs.Parser.Expressions
import LuaLayout.Proofs.Tokens.Spelling

namespace LuaLayout

open Lexeme

/-! ## 1. Leaves and the tokens they come from -/

namespace Leaf

theorem ofTokens_cons (t : Token) (rest : List Token) :
    ofTokens (t :: rest) =
      if isComment t then (t :: (ofTokens rest).1, (ofTokens rest).2)
      else ([], ⟨t, (ofTokens rest).1⟩ :: (ofTokens rest).2) := rfl

theorem isComment_iff {t : Token} : isComment t = true ↔ t.kind = .comment := by simp [isComment]

theorem isComment_eq_false_iff {t : Token} : isComment t = false ↔ t.kind ≠ .comment := by
  simp [isComment]

/-- Comments before tokens come before their leaves. -/
theorem ofTokens_comments {comments tokens : List Token} (h : ∀ c ∈ comments, isComment c = true) :
    ofTokens (comments ++ tokens) = (comments ++ (ofTokens tokens).1, (ofTokens tokens).2) := by
  induction comments with
  | nil => rfl
  | cons c rest ih =>
    obtain ⟨hc, hrest⟩ := List.forall_mem_cons.1 h
    rw [List.cons_append, ofTokens_cons, hc, ih hrest]
    rfl

/-- The comments before the first leaf are comments. -/
theorem of_mem_lead {tokens : List Token} {c : Token} (h : c ∈ (ofTokens tokens).1) :
    c ∈ tokens ∧ c.kind = .comment := by
  induction tokens with
  | nil => cases h
  | cons t rest ih =>
    rw [ofTokens_cons] at h
    split at h
    · next hcomment =>
      rcases List.mem_cons.1 h with rfl | h
      · exact ⟨by simp, isComment_iff.1 hcomment⟩
      · exact ⟨List.mem_cons_of_mem _ (ih h).1, (ih h).2⟩
    · cases h

/-- A leaf holds a token that is no comment, and comments. -/
theorem of_mem_leaves {tokens : List Token} {l : Leaf} (h : l ∈ (ofTokens tokens).2) :
    (l.token ∈ tokens ∧ l.token.kind ≠ .comment) ∧
      ∀ c ∈ l.comments, c ∈ tokens ∧ c.kind = .comment := by
  induction tokens with
  | nil => cases h
  | cons t rest ih =>
    have hlater : l ∈ (ofTokens rest).2 → (l.token ∈ t :: rest ∧ l.token.kind ≠ .comment) ∧
        ∀ c ∈ l.comments, c ∈ t :: rest ∧ c.kind = .comment := by
      intro hl
      obtain ⟨htoken, hcomments⟩ := ih hl
      exact ⟨⟨List.mem_cons_of_mem _ htoken.1, htoken.2⟩,
        fun c hc => ⟨List.mem_cons_of_mem _ (hcomments c hc).1, (hcomments c hc).2⟩⟩
    rw [ofTokens_cons] at h
    split at h
    · exact hlater h
    · next hcomment =>
      rcases List.mem_cons.1 h with rfl | h
      · refine ⟨⟨by simp, fun hkind => hcomment (isComment_iff.2 hkind)⟩, fun c hc => ?_⟩
        exact ⟨List.mem_cons_of_mem _ (of_mem_lead hc).1, (of_mem_lead hc).2⟩
      · exact hlater h

/-- The tokens of the leaves are those that are no comments. -/
theorem map_token_ofTokens (tokens : List Token) :
    (ofTokens tokens).2.map (·.token) = tokens.filter (!isComment ·) := by
  induction tokens with
  | nil => rfl
  | cons t rest ih =>
    rw [ofTokens_cons]
    cases hcomment : isComment t with
    | true => simp [hcomment, ih]
    | false => simp [hcomment, ih]

/-- The text of a leaf with the comments after it. -/
def sheet (l : Leaf) : String × List String := (l.token.text, l.remarks)

end Leaf

/-- The lexemes of a word, the last of which carries the comments. -/
def splitWord (text : String) (remarks : List String) : List (String × List String) :=
  match unsign text with
  | [minus, number] => [(minus, []), (number, remarks)]
  | _ => [(text, remarks)]

theorem splitWord_of_plain {text : String} (h : unsign text = [text]) (remarks : List String) :
    splitWord text remarks = [(text, remarks)] := by
  simp only [splitWord, h]

theorem splitWord_of_signed {text minus number : String} (h : unsign text = [minus, number])
    (remarks : List String) : splitWord text remarks = [(minus, []), (number, remarks)] := by
  simp only [splitWord, h]

/-! ## 2. Joined tokens -/

section

variable {version : Version} {folds : Bool} {tokens : List Token} {t : Token}

/-- A joined token is one of the tokens, or a number with its minus. -/
theorem mem_joinSigns (h : t ∈ joinSigns folds tokens) :
    t ∈ tokens ∨ ∃ minus ∈ tokens, ∃ number ∈ tokens, minus.isOperator "-" = true ∧
      number.kind = .number ∧ t = minus.signed number := by
  fun_induction joinSigns folds tokens with
  | case1 folds => exact .inl h
  | case2 folds u => exact .inl h
  | case3 folds u n rest hfold ih =>
    simp only [Bool.and_eq_true, beq_iff_eq] at hfold
    rcases List.mem_cons.1 h with rfl | h
    · exact .inr ⟨u, by simp, n, by simp, hfold.1.2, hfold.1.1, rfl⟩
    · rcases ih h with h | ⟨minus, hmem, number, hnumber, h⟩
      · exact .inl (by simp [h])
      · exact .inr ⟨minus, by simp [hmem], number, by simp [hnumber], h⟩
  | case4 folds u n rest hfold ih =>
    rcases List.mem_cons.1 h with rfl | h
    · exact .inl (by simp)
    · rcases ih h with h | ⟨minus, hmem, number, hnumber, h⟩
      · exact .inl (List.mem_cons_of_mem _ h)
      · exact .inr ⟨minus, List.mem_cons_of_mem _ hmem, number, List.mem_cons_of_mem _ hnumber, h⟩

/-- A lexeme of the grammar by its kind. -/
theorem Token.Lexical.numeral (h : t.Lexical version) (hkind : t.kind = .number) :
    ∃ kind : TokenKind, kind.isNumeral = true ∧ IsLexeme kind t.text.toList := by
  rcases h with ⟨hcomment, -⟩ | ⟨-, kind, hcode, hcomes⟩
  · rw [hkind] at hcomment
    cases hcomment
  · rcases (Token.Genuine.plain kind hcode hcomes).sorts with
      ⟨-, hk⟩ | ⟨hk, -⟩ | ⟨hk, -⟩ | ⟨-, h⟩ | ⟨hk, -⟩ | ⟨-, kind', number, hnumeral, hlex, htext⟩
    · rcases nameKind_cases (Vocabulary.keywords version) t.text with h' | h' | h' | h' <;>
        simp [hk, h'.1] at hkind
    · simp [hk] at hkind
    · simp [hk] at hkind
    · exact h
    · simp [hk] at hkind
    · -- A lexeme does not read as a number with its minus.
      obtain ⟨d, rest, hd, hbegins⟩ := numeral_starts hnumeral hlex
      have hplain := unsign_code hcode hcomes.1
      rw [htext, unsign_minus hd hbegins] at hplain
      exact absurd (congrArg List.length hplain) (by simp)

/-- A joined token is a comment or a token of the grammar. -/
theorem genuine_of_mem_joinSigns (hlex : ∀ u ∈ tokens, u.Lexical version)
    (h : t ∈ joinSigns folds tokens) :
    (t.kind = .comment ∧ IsRemark t.text.toList) ∨ (t.kind ≠ .comment ∧ t.Genuine version) := by
  rcases mem_joinSigns h with hmem | ⟨minus, -, number, hnumber, -, hkind, rfl⟩
  · rcases hlex t hmem with hcomment | ⟨hcode, kind, hkind, hcomes⟩
    · exact .inl hcomment
    · exact .inr ⟨hcode, .plain kind hkind hcomes⟩
  · obtain ⟨kind, hnumeral, hnumber'⟩ := (hlex number hnumber).numeral hkind
    have hsigned : (minus.signed number).kind = .number := hkind
    exact .inr ⟨by rw [hsigned]; decide, .signed kind number.text hnumeral hnumber' hsigned rfl⟩

/-- A lexeme of the grammar is not taken apart. -/
theorem Token.Lexical.unsign_eq (h : t.Lexical version) (hcode : t.kind ≠ .comment) :
    unsign t.text = [t.text] := by
  rcases h with ⟨hkind, -⟩ | ⟨-, kind, hkind, hcomes⟩
  · exact absurd hkind hcode
  · exact unsign_code hkind hcomes.1

/-- Joining keeps every lexeme and the comments after it. -/
theorem ofTokens_joinSigns (hlex : ∀ u ∈ tokens, u.Lexical version) :
    (Leaf.ofTokens (joinSigns folds tokens)).1 = (Leaf.ofTokens tokens).1 ∧
      (Leaf.ofTokens (joinSigns folds tokens)).2.flatMap
          (fun l => splitWord l.token.text l.remarks) =
        (Leaf.ofTokens tokens).2.map Leaf.sheet := by
  have hplain : ∀ u : Token, u.Lexical version → Leaf.isComment u = false →
      unsign u.text = [u.text] :=
    fun u h hcomment => h.unsign_eq (Leaf.isComment_eq_false_iff.1 hcomment)
  fun_induction joinSigns folds tokens with
  | case1 folds => exact ⟨rfl, rfl⟩
  | case2 folds u =>
    refine ⟨rfl, ?_⟩
    cases hcomment : Leaf.isComment u with
    | true => simp [hcomment, Leaf.ofTokens]
    | false =>
      simp [hcomment, Leaf.ofTokens, Leaf.sheet,
        splitWord_of_plain (hplain u (hlex u (by simp)) hcomment)]
  | case3 folds u n rest hfold ih =>
    obtain ⟨hlead, hleaves⟩ := ih fun v hv => hlex v (by simp [hv])
    simp only [Bool.and_eq_true, beq_iff_eq, Token.isOperator_iff] at hfold
    obtain ⟨⟨hnumber, hkind, htext⟩, -⟩ := hfold
    obtain ⟨kind, hnumeral, hn⟩ := (hlex n (by simp)).numeral hnumber
    obtain ⟨d, tail, hd, hbegins⟩ := numeral_starts hnumeral hn
    have hunsign : unsign (u.signed n).text = ["-", n.text] := unsign_minus hd hbegins
    have hu : Leaf.isComment u = false := Leaf.isComment_eq_false_iff.2 (by simp [hkind])
    have hn' : Leaf.isComment n = false := Leaf.isComment_eq_false_iff.2 (by simp [hnumber])
    have hs : Leaf.isComment (u.signed n) = false :=
      Leaf.isComment_eq_false_iff.2 (by simp [Token.signed, hnumber])
    simp only [Leaf.ofTokens_cons, hu, hn', hs, Bool.false_eq_true, if_false, hlead,
      List.flatMap_cons, splitWord_of_signed hunsign, hleaves, List.map_cons, Leaf.sheet, htext,
      true_and]
    rfl
  | case4 folds u n rest hfold ih =>
    obtain ⟨hlead, hleaves⟩ := ih fun v hv => hlex v (List.mem_cons_of_mem _ hv)
    rw [Leaf.ofTokens_cons u, Leaf.ofTokens_cons u, hlead]
    cases hcomment : Leaf.isComment u with
    | true => exact ⟨rfl, hleaves⟩
    | false =>
      refine ⟨rfl, ?_⟩
      simp only [Bool.false_eq_true, if_false, List.flatMap_cons,
        splitWord_of_plain (hplain u (hlex u (by simp)) hcomment), hleaves, List.map_cons]
      rfl

end

end LuaLayout
