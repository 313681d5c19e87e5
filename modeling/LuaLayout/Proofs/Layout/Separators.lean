/-
LuaLayout.Proofs.Layout.Separators — what becomes of the tokens of a program.

The layout keeps every token but the separators of tables: one before the
closing brace is left out, any other becomes a comma. `fates` says the same of
token texts in a row, without a tree, by keeping the constructs that are open: a
semicolon is a separator exactly where the innermost of them is a brace.

`Slots` of items are the words and the words left out. They are in agreement with
some leaves where each has the fate of its leaf and carries its comments.
-/
import LuaLayout.Proofs.Layout.Gaps

namespace LuaLayout

open Lexeme

/-! ## 1. Fates -/

/-- The texts that open a construct. -/
def openers : List String := ["\x7b", "function", "do", "then", "else", "repeat"]

/-- The texts that close the innermost construct. -/
def closers : List String := ["\x7d", "end", "until", "elseif", "else"]

/-- The texts that part the fields of a table. -/
def separators : List String := [",", ";"]

/-- The constructs that are open after a text, innermost first. -/
def track (stack : List String) (text : String) : List String :=
  let stack := if closers.contains text then stack.tail else stack
  if openers.contains text then text :: stack else stack

/-- What becomes of a text: nothing, if it is a separator right before a closing
brace; a comma, if it is a semicolon between fields. -/
def fate (stack : List String) (text : String) (next : Option String) : Option String :=
  if separators.contains text && next == some "\x7d" then none
  else if text == ";" && stack.head? == some "\x7b" then some ","
  else some text

/-- What becomes of each of some texts, after some that left constructs open. -/
def fates : List String → List String → List (Option String)
  | _, [] => []
  | stack, text :: rest => fate stack text rest.head? :: fates (track stack text) rest

/-- What is left of some texts. -/
def remaining (stack texts : List String) : List String := (fates stack texts).filterMap id

/-- Texts with the separators of tables brought into one form. -/
def normalize (texts : List String) : List String := remaining [] texts

/-- Only separators before a closing brace are left out. -/
theorem next_of_fate_none {stack : List String} {text : String} {next : Option String}
    (h : fate stack text next = none) : next = some "\x7d" := by
  unfold fate at h
  split at h
  · next hlast => simpa using (Bool.and_eq_true_iff.1 hlast).2
  split at h <;> cases h

/-- Only semicolons are rewritten. -/
theorem of_fate_some {stack : List String} {text word : String} {next : Option String}
    (h : fate stack text next = some word) : word = text ∨ text = ";" ∧ word = "," := by
  unfold fate at h
  split at h
  · cases h
  split at h
  · next hsemicolon =>
    simp only [Bool.and_eq_true, beq_iff_eq] at hsemicolon
    exact .inr ⟨hsemicolon.1, (Option.some.inj h).symm⟩
  · exact .inl (Option.some.inj h).symm

/-- Of the next text, a fate only depends on whether it is a closing brace. -/
theorem fate_congr (stack : List String) (text : String) {next next' : Option String}
    (h : next = some "\x7d" ↔ next' = some "\x7d") :
    fate stack text next = fate stack text next' := by
  have hbool : (next == some "\x7d") = (next' == some "\x7d") := by
    rw [Bool.eq_iff_iff, beq_iff_eq, beq_iff_eq]
    exact h
  simp only [fate, hbool]

theorem remaining_cons {stack rest : List String} {text : String} : remaining stack (text :: rest) =
    (fate stack text rest.head?).toList ++ remaining (track stack text) rest := by
  rw [remaining, fates, List.filterMap_cons]
  cases fate stack text rest.head? <;> rfl

/-- Every text that is left is one of the texts, or a comma. -/
theorem mem_fates {stack texts : List String} {word : String} (h : some word ∈ fates stack texts) :
    word ∈ texts ∨ word = "," := by
  induction texts generalizing stack with
  | nil => cases h
  | cons text rest ih =>
    rcases List.mem_cons.1 h with h | h
    · rcases of_fate_some h.symm with rfl | ⟨-, rfl⟩
      · exact .inl (by simp)
      · exact .inr rfl
    · rcases ih h with h | h
      · exact .inl (List.mem_cons_of_mem _ h)
      · exact .inr h

/-! ## 2. Texts without effect -/

/-- The texts that have to do with separators. -/
def reserved : List String := openers ++ closers ++ separators

/-- A text that opens and closes nothing and is no separator. -/
def Neutral (text : String) : Prop := text ∉ reserved

instance (text : String) : Decidable (Neutral text) := inferInstanceAs (Decidable (text ∉ reserved))

theorem fate_neutral {stack : List String} {text : String} {next : Option String}
    (h : Neutral text) : fate stack text next = some text := by
  simp only [Neutral, reserved, List.mem_append, not_or] at h
  have hsemicolon : text ≠ ";" := by
    rintro rfl
    exact h.2 (by decide)
  simp [fate, h.2, hsemicolon]

theorem track_neutral {stack : List String} {text : String} (h : Neutral text) :
    track stack text = stack := by
  simp only [Neutral, reserved, List.mem_append, not_or] at h
  simp [track, h.1.1, h.1.2]

theorem fates_neutral {stack rest : List String} {text : String} (h : Neutral text) :
    fates stack (text :: rest) = some text :: fates stack rest := by
  rw [fates, fate_neutral h, track_neutral h]

theorem fates_opener {stack rest : List String} {text : String} (h : text ∈ openers)
    (hcloses : text ∉ closers) : fates stack (text :: rest) = some text :: fates (text :: stack) rest := by
  have hall : ∀ text ∈ openers, separators.contains text = false ∧ text ≠ ";" := by decide
  simp only [fates, fate, track, (hall text h).1, List.contains_iff_mem.2 h]
  simp [hcloses, (hall text h).2]

theorem fates_closer {stack rest : List String} {top text : String} (h : text ∈ closers)
    (hopens : text ∉ openers) : fates (top :: stack) (text :: rest) = some text :: fates stack rest := by
  have hall : ∀ text ∈ closers, separators.contains text = false ∧ text ≠ ";" := by decide
  simp only [fates, fate, track, (hall text h).1, List.contains_iff_mem.2 h]
  simp [hopens, (hall text h).2]

theorem fates_else {stack rest : List String} {top : String} :
    fates (top :: stack) ("else" :: rest) = some "else" :: fates ("else" :: stack) rest := rfl

/-- A separator that is not left out. -/
theorem fates_separator {stack rest : List String} {text : String} (h : text ∈ separators)
    (hrest : rest.head? ≠ some "\x7d") :
    fates ("\x7b" :: stack) (text :: rest) = some "," :: fates ("\x7b" :: stack) rest := by
  have hnext : (rest.head? == some "\x7d") = false := by simpa using hrest
  simp only [separators, List.mem_cons, List.not_mem_nil, or_false] at h
  rcases h with rfl | rfl
  · simp [fates, fate, hnext, track, openers, closers]
  · simp [fates, fate, hnext, track, openers, closers]

/-- A separator that is left out. -/
theorem fates_trailing {stack rest : List String} {text : String} (h : text ∈ separators)
    (hrest : rest.head? = some "\x7d") : fates stack (text :: rest) = none :: fates stack rest := by
  simp only [separators, List.mem_cons, List.not_mem_nil, or_false] at h
  rcases h with rfl | rfl
  · simp [fates, fate, hrest, track, openers, closers, separators]
  · simp [fates, fate, hrest, track, openers, closers, separators]

theorem fates_comma {stack rest : List String} (hrest : rest.head? ≠ some "\x7d") :
    fates stack ("," :: rest) = some "," :: fates stack rest := by
  have hnext : (rest.head? == some "\x7d") = false := by simpa using hrest
  simp [fates, fate, hnext, track, openers, closers]

theorem fates_semicolon {stack rest : List String} (hstack : stack.head? ≠ some "\x7b")
    (hrest : rest.head? ≠ some "\x7d") :
    fates stack (";" :: rest) = some ";" :: fates stack rest := by
  have hnext : (rest.head? == some "\x7d") = false := by simpa using hrest
  have htop : (stack.head? == some "\x7b") = false := by simpa using hstack
  simp [fates, fate, hnext, htop, track, openers, closers]

/-! ## 3. Neutral tokens -/

namespace Token.Genuine

variable {version : Version} {t : Token}

/-- What is reserved begins with a letter, a brace or a separator. -/
theorem neutral_of_starts {text : String} {d : Char} {rest : List Char} (h : text.toList = d :: rest)
    (hname : Text.isNameStart d = false) (hd : d ∉ ['\x7b', '\x7d', ',', ';']) : Neutral text := by
  intro hmem
  have hall : ∀ r ∈ reserved, r.toList.head?.all
      (fun x => Text.isNameStart x || ['\x7b', '\x7d', ',', ';'].contains x) = true := by
    decide
  have hstarts := hall text hmem
  rw [h, List.head?_cons, Option.all_some, Bool.or_eq_true, List.contains_iff_mem] at hstarts
  rcases hstarts with h | h
  · rw [hname] at h
    cases h
  · exact hd h

/-- No name is reserved: the words among what is reserved are keywords. -/
theorem neutral_name (h : t.Genuine version) (hkind : t.kind = .name) : Neutral t.text := by
  have hlex := h.name_lexeme (.inl hkind)
  have hwords : ∀ r ∈ reserved, r ∈ Vocabulary.baseKeywords ∨
      r.toList.head?.any (!Text.isNameStart ·) = true := by decide
  intro hmem
  rcases hwords _ hmem with hkeyword | hother
  · have hmore : t.text ∈ Vocabulary.keywords version := by
      unfold Vocabulary.keywords
      split
      · exact List.mem_cons_of_mem _ hkeyword
      · exact hkeyword
    rcases h.sorts with ⟨-, hk⟩ | ⟨hk, -⟩ | ⟨hk, -⟩ | ⟨hk, -⟩ | ⟨hk, -⟩ | ⟨hk, -⟩
    · simp [hk, nameKind, hmore] at hkind
    all_goals simp [hk] at hkind
  · obtain ⟨e, rest, he, hstart, -⟩ := hlex
    rw [he, List.head?_cons, Option.any_some, hstart] at hother
    cases hother

theorem neutral_string (h : t.Genuine version) (hkind : t.kind = .string) : Neutral t.text := by
  obtain ⟨d, rest, hd, hquote⟩ := h.string_starts hkind
  rcases hquote with rfl | rfl | rfl <;> exact neutral_of_starts hd (by decide) (by decide)

theorem neutral_number (h : t.Genuine version) (hkind : t.kind = .number) : Neutral t.text := by
  obtain ⟨d, rest, hd, hbegins | rfl⟩ := h.number_starts hkind
  · refine neutral_of_starts hd ?_ ?_
    · simp only [beginsNumber, Bool.or_eq_true, beq_iff_eq] at hbegins
      rcases hbegins with hdigit | rfl
      · exact not_isNameStart_of_isDecimalDigit hdigit
      · decide
    · intro hmem
      simp only [List.mem_cons, List.not_mem_nil, or_false] at hmem
      rcases hmem with rfl | rfl | rfl | rfl <;> exact absurd hbegins (by decide)
  · exact neutral_of_starts hd (by decide) (by decide)

theorem neutral_constant (h : t.Genuine version) (hkind : t.kind = .constant) : Neutral t.text := by
  have hall : ∀ c ∈ Vocabulary.constants, Neutral c := by decide
  rcases h.sorts with ⟨-, hk⟩ | ⟨-, htext⟩ | ⟨hk, -⟩ | ⟨hk, -⟩ | ⟨hk, -⟩ | ⟨hk, -⟩
  · rcases nameKind_cases (Vocabulary.keywords version) t.text with h' | h' | h' | h'
    · simp [hk, h'.1] at hkind
    · simp [hk, h'.1] at hkind
    · exact hall _ h'.2
    · simp [hk, h'.1] at hkind
  · rw [htext]
    decide
  all_goals simp [hk] at hkind

theorem neutral_literal (h : t.Genuine version) (hkind : Parser.isLiteral t = true) :
    Neutral t.text := by
  simp only [Parser.isLiteral, Bool.or_eq_true, beq_iff_eq] at hkind
  rcases hkind with (hkind | hkind) | hkind
  · exact h.neutral_number hkind
  · exact h.neutral_string hkind
  · exact h.neutral_constant hkind

/-- No expression begins with a closing brace. -/
theorem expr_ne_brace (h : t.Genuine version) (hs : t.startsExpr = true) : t.text ≠ "\x7d" := by
  intro htext
  obtain ⟨d, rest, hd, hcases⟩ := h.expr_starts hs
  rw [htext, show "\x7d".toList = ['\x7d'] from rfl] at hd
  cases hd
  rcases hcases with h | h | h | ⟨-, h⟩ <;> exact absurd h (by decide)

end Token.Genuine

/-- The operators of expressions are neutral. -/
theorem neutral_binary {limit : Int} {t : Token} {powers : Powers}
    (h : Parser.continuing? limit t = some powers) : Neutral t.text := by
  have hall : ∀ p ∈ Powers.table, Neutral p.1 := by decide
  simp only [Parser.continuing?, Option.filter_eq_some_iff, Parser.binaryPowers?] at h
  obtain ⟨h, -⟩ := h
  split at h
  · obtain ⟨before, after, heq, -⟩ := List.lookup_eq_some_iff.1 h
    exact hall (t.text, powers) (by rw [heq]; simp)
  · cases h

theorem neutral_unary {t : Token} (h : Parser.isUnary t = true) : Neutral t.text := by
  have hall : ∀ op ∈ Powers.unaryOperators, Neutral op := by decide
  simp only [Parser.isUnary, Bool.and_eq_true] at h
  exact hall t.text (List.contains_iff_mem.1 h.2)

end LuaLayout
