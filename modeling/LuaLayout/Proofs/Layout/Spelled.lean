/-
LuaLayout.Proofs.Layout.Spelled — leaves that spell the words of a tree.

The same words can be read as more than one list of leaves: a minus and a number
are one leaf or two, and comments and places are free. `Spelled` says that leaves
spell given texts, where only a unary minus is ever joined to its number. The
texts come from a tree in one of two ways: as they are in its leaves, or as its
layout writes them, with commas between fields and none after the last one.
The lemmas about such leaves each take one text off the front.
-/
import LuaLayout.Proofs.Layout.Apart
import LuaLayout.Proofs.Page.Words

namespace LuaLayout

open Lexeme

/-! ## 1. Leaves that are alike -/

/-- The tokens are the same up to their places. -/
def Same (next next' : Option Token) : Prop := next'.map Token.bare = next.map Token.bare

/-- The second token ends an expression or access wherever the first one does. -/
structure Passes (next next' : Option Token) : Prop where
  expr : ∀ limit, EndsExpr limit next → EndsExpr limit next'
  access : EndsAccess next → EndsAccess next'

namespace Same

variable {next next' : Option Token}

theorem rfl {next : Option Token} : Same next next := Eq.refl _

/-- A token that differs in its place only. -/
theorem exists_of_mem (h : Same next next') {t : Token} (ht : t ∈ next') :
    ∃ u ∈ next, t.kind = u.kind ∧ t.text = u.text := by
  obtain rfl : next' = some t := ht
  cases next with
  | none => cases h
  | some u => exact ⟨u, Eq.refl _, Token.bare_eq_iff.1 (Option.some.inj h)⟩

theorem noneOf {texts : List String} (h : Same next next') (hnone : NoneOf texts next) :
    NoneOf texts next' := by
  intro t ht
  obtain ⟨u, hu, -, htext⟩ := h.exists_of_mem ht
  rw [htext]
  exact hnone u hu

/-- Tests that do not depend on places. -/
theorem all {p : Token → Bool} (hp : ∀ t, p t.bare = p t) (h : Same next next') :
    next'.all p = next.all p := by
  have hbare : ∀ next : Option Token, (next.map Token.bare).all p = next.all p := by
    intro next
    cases next with
    | none => exact Eq.refl _
    | some t => exact hp t
  rw [← hbare next', h, hbare]

theorem passes (h : Same next next') : Passes next next' where
  expr limit hends := by
    have hbare : ∀ next : Option Token,
        (next.map Token.bare).bind (Parser.continuing? limit) =
          next.bind (Parser.continuing? limit) := by
      intro next
      cases next <;> exact Eq.refl _
    rw [EndsExpr, ← hbare next', h, hbare]
    exact hends
  access hends t ht := by
    obtain ⟨u, hu, hkind, htext⟩ := h.exists_of_mem ht
    have hbare : t.startsSuffix = u.startsSuffix := by
      simp only [Token.startsSuffix, Token.isOperator, hkind, htext]
    rw [hbare]
    exact hends u hu

end Same

namespace Leaf

/-- The leaves are the same but for places and comments. -/
def Alike (l m : Leaf) : Prop := l.token.bare = m.token.bare

namespace Alike

variable {l m : Leaf}

theorem kind (h : l.Alike m) : l.token.kind = m.token.kind := (Token.bare_eq_iff.1 h).1

theorem text (h : l.Alike m) : l.token.text = m.token.text := (Token.bare_eq_iff.1 h).2

theorem same (h : l.Alike m) : Same (some m.token) (some l.token) := congrArg some h

theorem saying {text : String} (h : l.Alike m) (hm : m.Says text) : l.Says text := h.text.trans hm

theorem isName (h : l.Alike m) (hm : m.IsName) : l.IsName := h.kind.trans hm

theorem isSymbol {text : String} (h : l.Alike m) (hm : m.IsSymbol text) : l.IsSymbol text := by
  have hboth := Token.isOperator_iff.1 hm
  exact Token.isOperator_iff.2 ⟨h.kind.trans hboth.1, h.text.trans hboth.2⟩

/-- Tests that do not depend on places. -/
theorem congr {α : Type} {f : Token → α} (hf : ∀ t, f t.bare = f t) (h : l.Alike m) :
    f l.token = f m.token := by
  rw [← hf l.token, h, hf]

theorem isWord {text : String} (h : l.Alike m) (hm : m.token.isKeyword text = true) :
    l.token.isKeyword text = true := by
  have hboth := Token.isKeyword_iff.1 hm
  exact Token.isKeyword_iff.2 ⟨h.kind.trans hboth.1, h.text.trans hboth.2⟩

theorem opens {form : StatementForm} (h : l.Alike m) (hm : m.Opens form) : l.Opens form :=
  (h.congr fun _ => rfl).trans hm

theorem opensNone (h : l.Alike m) (hm : m.OpensNone) : l.OpensNone :=
  ⟨(h.congr fun _ => rfl).trans hm.1, (h.congr fun _ => rfl).trans hm.2⟩

end Alike

end Leaf

/-! ## 2. Items without their comments -/

namespace Item

/-- The items without comments and what is left out, words taken apart. -/
def flat : List Item → List Item
  | [] => []
  | .word text _ :: rest => (unsign text).map (.word · []) ++ flat rest
  | .omitted _ :: rest => flat rest
  | .space :: rest => .space :: flat rest
  | .line indent noteIndent blank :: rest => .line indent noteIndent blank :: flat rest

/-- The words, taken apart. -/
def texts : List Item → List String
  | [] => []
  | .word text _ :: rest => unsign text ++ texts rest
  | .omitted _ :: rest => texts rest
  | .space :: rest => texts rest
  | .line _ _ _ :: rest => texts rest

section

variable {l : Leaf} {text : String} {indent noteIndent : Int} {blank b : Bool} {items rest : List Item}

@[simp] theorem flat_nil : flat [] = [] := rfl

@[simp] theorem flat_wordAs :
    flat (l.wordAs text :: rest) = (unsign text).map (.word · []) ++ flat rest := rfl

@[simp] theorem flat_word :
    flat (l.word :: rest) = (unsign l.token.text).map (.word · []) ++ flat rest := rfl

@[simp] theorem flat_omitted : flat (l.omitted :: rest) = flat rest := rfl

@[simp] theorem flat_space : flat (.space :: rest) = .space :: flat rest := rfl

@[simp] theorem flat_line :
    flat (.line indent noteIndent blank :: rest) = .line indent noteIndent blank :: flat rest := rfl

@[simp] theorem flat_newLine : flat (newLine indent :: rest) = newLine indent :: flat rest := rfl

@[simp] theorem flat_closingLine :
    flat (closingLine indent :: rest) = closingLine indent :: flat rest := rfl

@[simp] theorem flat_append : flat (items ++ rest) = flat items ++ flat rest := by
  induction items with
  | nil => rfl
  | cons item more ih => cases item <;> simp [flat, ih]

@[simp] theorem flat_spaceIf : flat (spaceIf b) = spaceIf b := by cases b <;> rfl

@[simp] theorem texts_nil : texts [] = [] := rfl

@[simp] theorem texts_wordAs : texts (l.wordAs text :: rest) = unsign text ++ texts rest := rfl

@[simp] theorem texts_word : texts (l.word :: rest) = unsign l.token.text ++ texts rest := rfl

@[simp] theorem texts_space : texts (.space :: rest) = texts rest := rfl

@[simp] theorem texts_line : texts (.line indent noteIndent blank :: rest) = texts rest := rfl

@[simp] theorem texts_newLine : texts (newLine indent :: rest) = texts rest := rfl

@[simp] theorem texts_closingLine : texts (closingLine indent :: rest) = texts rest := rfl

@[simp] theorem texts_append : texts (items ++ rest) = texts items ++ texts rest := by
  induction items with
  | nil => rfl
  | cons item more ih => cases item <;> simp [texts, ih]

@[simp] theorem texts_spaceIf : texts (spaceIf b) = [] := by cases b <;> rfl

@[simp] theorem texts_trailing (trailing : Option Leaf) :
    texts (trailing.toList.map Leaf.omitted) = [] := by
  cases trailing <;> rfl

@[simp] theorem flat_trailing (trailing : Option Leaf) :
    flat (trailing.toList.map Leaf.omitted) = [] := by
  cases trailing <;> rfl

theorem texts_eq (items : List Item) :
    texts items = ((slots (split items)).map Prod.fst).filterMap id := by
  induction items with
  | nil => rfl
  | cons item rest ih =>
    cases item with
    | word text remarks =>
      rcases unsign_cases text with hplain | ⟨number, -, hsigned⟩
      · simp [split_plain hplain, texts, slots, hplain, ih]
      · simp [split_signed hsigned, texts, slots, hsigned, ih]
    | omitted remarks => exact ih
    | space => exact ih
    | line indent noteIndent blank => exact ih

end

end Item

/-- The texts that the grammar fixes at their places. -/
def fixedTexts : List String :=
  ["(", ")", "[", "]", "\x7b", "\x7d", "<", ">", "=", ",", ";", ":", "::", ".", "break", "do",
   "else", "elseif", "end", "for", "function", "goto", "if", "in", "local", "repeat", "return",
   "then", "until", "while"]

/-- A fixed text is one lexeme, and no minus. -/
theorem unsign_fixed {text : String} (h : text ∈ fixedTexts) : unsign text = [text] ∧ text ≠ "-" := by
  have hall : ∀ t ∈ fixedTexts, unsign t = [t] ∧ t ≠ "-" := by decide
  exact hall text h

theorem unsign_minus_alone : unsign "-" = ["-"] := by decide

/-- The texts of a part: as they are in its leaves, or `tidy`, as its layout has them. -/
def worded (tidy : Bool) (leaves : List Leaf) (items : List Item) : List String :=
  if tidy then Item.texts items else leaves.flatMap fun l => unsign l.token.text

section

variable {tidy : Bool} {l : Leaf} {leaves more : List Leaf} {items rest : List Item} {text : String}
  {indent noteIndent : Int} {blank b : Bool}

@[simp] theorem worded_nil : worded tidy [] [] = [] := by cases tidy <;> rfl

theorem worded_append :
    worded tidy (leaves ++ more) (items ++ rest) = worded tidy leaves items ++ worded tidy more rest := by
  cases tidy <;> simp [worded]

theorem worded_leaf :
    worded tidy (l :: leaves) (l.word :: items) = unsign l.token.text ++ worded tidy leaves items := by
  cases tidy <;> rfl

theorem worded_saying (h : l.Says text) :
    worded tidy (l :: leaves) (l.wordAs text :: items) = unsign text ++ worded tidy leaves items := by
  have htext : l.token.text = text := h
  cases tidy
  · simp [worded, htext]
  · rfl

/-- A leaf with a fixed text. -/
theorem worded_fixed (h : l.Says text) (hfixed : text ∈ fixedTexts := by decide) :
    worded tidy (l :: leaves) (l.wordAs text :: items) = text :: worded tidy leaves items := by
  rw [worded_saying h, (unsign_fixed hfixed).1]
  rfl

@[simp] theorem worded_space : worded tidy leaves (.space :: items) = worded tidy leaves items := by
  cases tidy <;> rfl

@[simp] theorem worded_line :
    worded tidy leaves (.line indent noteIndent blank :: items) = worded tidy leaves items := by
  cases tidy <;> rfl

@[simp] theorem worded_newLine :
    worded tidy leaves (newLine indent :: items) = worded tidy leaves items := worded_line

@[simp] theorem worded_closingLine :
    worded tidy leaves (closingLine indent :: items) = worded tidy leaves items := worded_line

@[simp] theorem worded_spaceIf : worded tidy leaves (spaceIf b ++ items) = worded tidy leaves items := by
  cases b
  · rfl
  · exact worded_space

end

/-! ## 3. Leaves that spell texts -/

/-- The leaves spell the texts, one leaf for each, or for a minus and a number;
`folds` says whether a minus at the front is unary. -/
inductive Spelled (version : Version) : Bool → List String → List Leaf → Prop
  | nil {folds : Bool} : Spelled version folds [] []
  | lexeme {folds : Bool} {l : Leaf} {text : String} {texts : List String} {leaves : List Leaf} :
    l.token.Genuine version → l.token.bare = spell version text →
    Spelled version (foldsAfter (some l.token)) texts leaves →
    Spelled version folds (text :: texts) (l :: leaves)
  | signed {l : Leaf} {number : String} {texts : List String} {leaves : List Leaf} :
    l.token.Genuine version → IsNumeral version number →
    unsign l.token.text = ["-", number] →
    l.token.bare = (spell version "-").signed (spell version number) →
    Spelled version false texts leaves → Spelled version true ("-" :: number :: texts) (l :: leaves)

/-- The token that the texts begin with. -/
def headOf (version : Version) (texts : List String) : Option Token :=
  texts.head?.map (spell version)

section

variable {version : Version} {folds : Bool} {tokens : List Token} {leaves rest : List Leaf}
  {more texts : List String} {text : String} {l m : Leaf} {next : Option Token}

/-- A token that has its own bare text as its only lexeme. -/
theorem Token.Lexical.plain {t : Token} (h : t.Lexical version) (hcode : t.kind ≠ .comment) :
    t.Genuine version ∧ t.bare = spell version t.text := by
  rcases h with ⟨hkind, -⟩ | ⟨-, kind, hkind, hcomes⟩
  · exact absurd hkind hcode
  · exact ⟨.plain kind hkind hcomes, hcomes.bare_eq hkind⟩

/-- Joining signs, with comments or without, gives leaves that spell the same texts. -/
theorem spelled_joinSigns (hlex : ∀ u ∈ tokens, u.Lexical version) :
    Spelled version folds ((Leaf.ofTokens tokens).2.map (·.token.text))
      (Leaf.ofTokens (joinSigns folds tokens)).2 := by
  fun_induction joinSigns folds tokens with
  | case1 folds => exact .nil
  | case2 folds u =>
    cases hcomment : Leaf.isComment u with
    | true => simpa [hcomment, Leaf.ofTokens] using .nil
    | false =>
      obtain ⟨hg, hbare⟩ := (hlex u (by simp)).plain (Leaf.isComment_eq_false_iff.1 hcomment)
      simpa [hcomment, Leaf.ofTokens] using .lexeme hg hbare .nil
  | case3 folds u n rest hfold ih =>
    have hlater := ih fun v hv => hlex v (by simp [hv])
    simp only [Bool.and_eq_true, beq_iff_eq, Token.isOperator_iff] at hfold
    obtain ⟨⟨hnumber, hkind, htext⟩, rfl⟩ := hfold
    have hu : Leaf.isComment u = false := Leaf.isComment_eq_false_iff.2 (by simp [hkind])
    have hn : Leaf.isComment n = false := Leaf.isComment_eq_false_iff.2 (by simp [hnumber])
    have hs : Leaf.isComment (u.signed n) = false :=
      Leaf.isComment_eq_false_iff.2 (by simp [Token.signed, hnumber])
    obtain ⟨-, hubare⟩ := (hlex u (by simp)).plain (by simp [hkind])
    obtain ⟨-, hnbare⟩ := (hlex n (by simp)).plain (by simp [hnumber])
    have hnumeral : IsNumeral version n.text := by
      rw [IsNumeral, ← hnbare]
      exact hnumber
    obtain ⟨kind, hnumeralKind, hlexeme⟩ := (hlex n (by simp)).numeral hnumber
    have hsigned : (u.signed n).kind = .number := hnumber
    have htokens : (u.signed n).text = "-" ++ n.text := rfl
    obtain ⟨d, tail, hd, hbegins⟩ := numeral_starts hnumeralKind hlexeme
    simp only [Leaf.ofTokens_cons, hu, hn, hs, Bool.false_eq_true, if_false, List.map_cons, htext]
    refine .signed (.signed kind n.text hnumeralKind hlexeme hsigned htokens) hnumeral
      (unsign_minus hd hbegins) ?_ hlater
    rw [← hnbare]
    rfl
  | case4 folds u n rest hfold ih =>
    have hlater := ih fun v hv => hlex v (List.mem_cons_of_mem _ hv)
    rw [Leaf.ofTokens_cons u, Leaf.ofTokens_cons u]
    cases hcomment : Leaf.isComment u with
    | true =>
      have hpast : foldsPast folds u = folds := by simp [foldsPast, Leaf.isComment_iff.1 hcomment]
      rw [hpast] at hlater ⊢
      exact hlater
    | false =>
      have hkind := Leaf.isComment_eq_false_iff.1 hcomment
      obtain ⟨hg, hbare⟩ := (hlex u (by simp)).plain hkind
      have hpast : foldsPast folds u = foldsAfter (some u) := by simp [foldsPast, hkind]
      rw [hpast] at hlater ⊢
      exact .lexeme hg hbare hlater

namespace Spelled

theorem genuine (h : Spelled version folds texts leaves) : AllGenuine version leaves := by
  induction h with
  | nil => exact nofun
  | lexeme hg _ _ ih => exact AllGenuine.cons_iff.2 ⟨hg, ih⟩
  | signed hg _ _ _ _ ih => exact AllGenuine.cons_iff.2 ⟨hg, ih⟩

/-- Nothing is left of leaves that spell nothing. -/
theorem eq_nil (h : Spelled version folds [] leaves) : leaves = [] := by
  cases h
  rfl

/-- A text is a leaf of its own, or it is a unary minus and joined to a number. -/
theorem cases_cons (h : Spelled version folds (text :: more) leaves) :
    (∃ l rest, leaves = l :: rest ∧ l.token.bare = spell version text ∧
      Spelled version (foldsAfter (some l.token)) more rest) ∨
    text = "-" ∧ ∃ l number texts rest, leaves = l :: rest ∧ more = number :: texts ∧
      IsNumeral version number ∧ unsign l.token.text = ["-", number] ∧
      l.token.bare = (spell version "-").signed (spell version number) ∧
      Spelled version false texts rest := by
  cases h with
  | lexeme hg hbare hrest => exact .inl ⟨_, _, rfl, hbare, hrest⟩
  | signed hg hnumber hunsign hbare hrest =>
    exact .inr ⟨rfl, _, _, _, _, rfl, rfl, hnumber, hunsign, hbare, hrest⟩

/-- A text that is joined to nothing. -/
theorem step (h : Spelled version folds (text :: more) leaves) (hminus : text = "-" → folds = false) :
    ∃ l rest, leaves = l :: rest ∧ l.token.bare = spell version text ∧
      Spelled version (foldsAfter (some l.token)) more rest := by
  cases h with
  | lexeme hg hbare hrest => exact ⟨_, _, rfl, hbare, hrest⟩
  | signed hg hnumber hunsign hbare hrest => exact absurd (hminus rfl) (by decide)

/-- What stands at the front is the first text, unless that is a unary minus. -/
theorem front_same (h : Spelled version folds more leaves) (hminus : more.head? = some "-" → folds = false) :
    Same (headOf version more) (Leaf.front leaves none) := by
  cases more with
  | nil =>
    rw [h.eq_nil]
    exact .rfl
  | cons text more =>
    obtain ⟨l, rest, rfl, hbare, -⟩ := h.step fun htext => hminus (by rw [htext]; rfl)
    exact congrArg some hbare

/-- A leaf that is joined to nothing. -/
theorem take (h : Spelled version folds (m.token.text :: more) leaves) (hg : m.token.Genuine version)
    (hplain : unsign m.token.text = [m.token.text]) (hminus : m.token.text = "-" → folds = false) :
    ∃ l rest, leaves = l :: rest ∧ l.Alike m ∧
      Spelled version (foldsAfter (some m.token)) more rest := by
  obtain ⟨l, rest, rfl, hbare, hrest⟩ := h.step hminus
  have hlike : l.Alike m := by
    rcases hg.spells with ⟨-, -, hm⟩ | ⟨number, -, hsigned, -⟩
    · exact hbare.trans hm.symm
    · exact absurd (congrArg List.length (hplain.symm.trans hsigned)) (by simp)
  have hfolds : foldsAfter (some l.token) = foldsAfter (some m.token) := by
    simp only [foldsAfter, hlike.kind, hlike.text]
  rw [hfolds] at hrest
  exact ⟨l, rest, rfl, hlike, hrest⟩

/-- A leaf with a fixed text. -/
theorem fixed (h : Spelled version folds (text :: more) leaves) (hm : m.Says text)
    (hg : m.token.Genuine version)
    (hfixed : text ∈ fixedTexts := by decide) :
    ∃ l rest, leaves = l :: rest ∧ l.Alike m ∧
      Spelled version (foldsAfter (some m.token)) more rest := by
  obtain rfl : m.token.text = text := hm
  obtain ⟨hplain, hminus⟩ := unsign_fixed hfixed
  exact h.take hg hplain fun heq => absurd heq hminus

end Spelled

/-- A token of the grammar that is no number has its text as its only lexeme. -/
theorem Token.Genuine.unsign_eq {t : Token} (h : t.Genuine version) (hkind : t.kind ≠ .number) :
    unsign t.text = [t.text] := by
  rcases h.spells with ⟨-, hplain, -⟩ | ⟨number, hnumber, -, hbare⟩
  · exact hplain
  · exact absurd ((congrArg Token.kind hbare).trans hnumber) hkind

/-- An operator is the only token whose text is a minus. -/
theorem Token.Genuine.ne_minus {t : Token} (h : t.Genuine version) (hkind : t.kind ≠ .operator) :
    t.text ≠ "-" := by
  intro htext
  rcases h.spells with ⟨-, -, hbare⟩ | ⟨number, -, hsigned, -⟩
  · rw [htext, spell_operator (by decide) (by decide)] at hbare
    exact hkind (congrArg Token.kind hbare)
  · rw [htext, unsign_minus_alone] at hsigned
    cases hsigned

namespace Spelled

/-- A name. -/
theorem name (h : Spelled version folds (unsign m.token.text ++ more) leaves) (hname : m.IsName)
    (hg : m.token.Genuine version) :
    ∃ l rest, leaves = l :: rest ∧ l.Alike m ∧ Spelled version false more rest := by
  have hkind : m.token.kind = .name := hname
  have hplain := hg.unsign_eq (by rw [hkind]; decide)
  rw [hplain] at h
  obtain ⟨l, rest, hl, hlike, hrest⟩ :=
    h.take hg hplain fun heq => absurd heq (hg.ne_minus (by rw [hkind]; decide))
  have hfolds : foldsAfter (some m.token) = false := by simp [foldsAfter, hkind]
  rw [hfolds] at hrest
  exact ⟨l, rest, hl, hlike, hrest⟩

/-- A text that ends an operand. -/
theorem closing (h : Spelled version folds (text :: more) leaves) (hm : m.Says text)
    (hg : m.token.Genuine version)
    (htext : text ∈ [")", "]", "\x7d", "end"] := by decide) :
    ∃ l rest, leaves = l :: rest ∧ l.Alike m ∧ Spelled version false more rest := by
  have hall : ∀ t ∈ [")", "]", "\x7d", "end"], t ∈ fixedTexts ∧
      (t = "end" ∨ t ∈ Vocabulary.allOperators ∧ t ≠ Vocabulary.ellipsis ∧
        Vocabulary.closingBrackets.contains t = true) := by decide
  obtain ⟨hfixed, hcases⟩ := hall text htext
  obtain ⟨l, rest, hl, hlike, hrest⟩ := h.fixed hm hg hfixed
  have hfolds : foldsAfter (some m.token) = false := by
    have hbare : m.token.bare = spell version text := by
      have heq : m.token.text = text := hm
      rcases hg.spells with ⟨-, -, hbare⟩ | ⟨number, -, hsigned, -⟩
      · rwa [heq] at hbare
      · rw [heq, (unsign_fixed hfixed).1] at hsigned
        cases hsigned
    have hbareFolds : foldsAfter (some m.token) = foldsAfter (some m.token.bare) := rfl
    rw [hbareFolds, hbare]
    rcases hcases with rfl | ⟨hmem, hdots, hcloses⟩
    · rw [(spell_keyword (by decide)).2]
      rfl
    · rw [spell_operator hmem hdots]
      simp only [foldsAfter, hcloses, Bool.not_true]
  rw [hfolds] at hrest
  exact ⟨l, rest, hl, hlike, hrest⟩

end Spelled

/-! ## 4. How statements begin -/

/-- The words that open statements are one lexeme and no minus. -/
theorem Leaf.Opens.plain {l : Leaf} {form : StatementForm} (h : l.Opens form) :
    unsign l.token.text = [l.token.text] ∧ l.token.text ≠ "-" := by
  have htext : l.token.text = form.opening := h.saying
  rw [htext]
  refine unsign_fixed ?_
  cases form <;> decide

/-- An access begins with one lexeme, which is no minus. -/
theorem Access.Fits.plain {a : Access} (h : a.Fits next) (hg : a.head.token.Genuine version) :
    unsign a.head.token.text = [a.head.token.text] ∧ a.head.token.text ≠ "-" := by
  rcases Access.Fits.starts h with hopen | hname
  · rw [(Token.isOperator_iff.1 hopen).2]
    exact unsign_fixed (by decide)
  · exact ⟨hg.unsign_eq (by simp [hname]), hg.ne_minus (by simp [hname])⟩

/-- A statement begins with a word that is one lexeme and no minus. -/
theorem Stat.begins (indent : Int) {x : Stat} (h : x.Fits next) (hg : AllGenuine version x.leaves) :
    ∃ l ls, x.leaves = l :: ls ∧ BeginsWith l.token.text (x.layout false indent) ∧
      unsign l.token.text = [l.token.text] ∧ l.token.text ≠ "-" := by
  have hword : ∀ {l : Leaf} {ls : List Leaf} {form : StatementForm} {rest : List Item},
      l.Opens form → x.leaves = l :: ls → x.layout false indent = l.wordAs form.opening :: rest →
      ∃ l ls, x.leaves = l :: ls ∧ BeginsWith l.token.text (x.layout false indent) ∧
        unsign l.token.text = [l.token.text] ∧ l.token.text ≠ "-" := by
    intro l ls form rest hl hleaves hlayout
    have htext : l.token.text = form.opening := hl.saying
    exact ⟨l, ls, hleaves, ⟨l.remarks, rest, by rw [hlayout, htext]; rfl⟩, hl.plain⟩
  have haccess : ∀ {a : Access} {next : Option Token} {ls : List Leaf} {rest : List Item},
      a.Fits next → x.leaves = a.leaves ++ ls → x.layout false indent = a.layout false indent ++ rest →
      ∃ l ls, x.leaves = l :: ls ∧ BeginsWith l.token.text (x.layout false indent) ∧
        unsign l.token.text = [l.token.text] ∧ l.token.text ≠ "-" := by
    intro a next ls rest ha hleaves hlayout
    obtain ⟨more, hl⟩ := a.leaves_eq
    obtain ⟨remarks, others, hbegins⟩ := Access.begins indent ha
    exact ⟨a.head, more ++ ls, by simp [hleaves, hl],
      ⟨remarks, others ++ rest, by simp [hlayout, hbegins]⟩, ha.plain (hg _ (by simp [hleaves, hl]))⟩
  cases x with
  | breakLoop word => exact hword h rfl rfl
  | goto word target => exact hword h.1 rfl rfl
  | label opening name closing => exact hword h.1 rfl rfl
  | empty semicolon => exact hword h rfl rfl
  | doBlock word block closing => exact hword h.1 rfl rfl
  | whileLoop word condition opening block closing => exact hword h.1 rfl rfl
  | repeatLoop word block closing condition => exact hword h.1 rfl rfl
  | conditional first more otherwise closing =>
    obtain ⟨word, condition, opening, block⟩ := first
    exact hword (h.1 word rfl) rfl rfl
  | countingLoop word name equals start comma stop step opening block closing => exact hword h.1 rfl rfl
  | iteration word name more between values opening block closing => exact hword h.1 rfl rfl
  | function word name path method body => exact hword h.1 rfl rfl
  | localFunction word function name body => exact hword h.1 rfl rfl
  | localNames word first more values =>
    obtain _ | ⟨equals, values⟩ := values <;> exact hword h.1 rfl rfl
  | result word values => cases values <;> exact hword h.1 rfl rfl
  | assignment first more equals values =>
    have hlayout : (Stat.assignment first more equals values).layout false indent =
        first.layout false indent ++ (commaAccessesLayout false indent more ++
          .space :: equals.wordAs "=" :: .space :: values.layout false indent) := by
      simp only [Stat.layout, List.append_assoc]
    exact haccess h.2.1 rfl hlayout
  | call callee => exact haccess h.2.1 (List.append_nil _).symm (List.append_nil _).symm

end

end LuaLayout
