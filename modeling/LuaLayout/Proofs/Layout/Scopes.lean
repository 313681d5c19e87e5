/-
LuaLayout.Proofs.Layout.Scopes — what is open, and which of it has a name.

Keywords and braces open and close constructs, whatever stands between them. A
function has a name if one comes right after its word: in an expression an opening
bracket comes there. So reading tokens from the front is enough to tell, at each
`end`, whether it closes a function that was declared. White space and comments
change nothing but what the last token was.
-/
import LuaLayout.Proofs.Page.Words

namespace LuaLayout

/-! ## 1. Openers and closers among tokens -/

namespace Token

/-- The token is a keyword or an operator with one of the texts. -/
def isOneOf (texts : List String) (t : Token) : Bool :=
  (t.kind == .keyword || t.kind == .operator) && texts.contains t.text

/-- The token opens a construct. -/
def opens (t : Token) : Bool := t.isOneOf openers

/-- The token closes a construct. -/
def closes (t : Token) : Bool := t.isOneOf closers

/-- Only openers and closers change what is open, and they are keywords or operators. -/
theorem isOneOf_iff {version : Version} {t : Token} {texts : List String} {text : String}
    (htexts : ∀ w ∈ texts, w ∈ openers ++ closers) (hspell : t.bare = spell version text) :
    t.isOneOf texts = true ↔ text ∈ texts := by
  have hall : ∀ w ∈ openers ++ closers, w ∈ Vocabulary.baseKeywords ∨
      w ∈ Vocabulary.allOperators ∧ w ≠ Vocabulary.ellipsis := by decide
  have hkind : t.kind = (spell version text).kind := (congrArg Token.kind hspell :)
  have htext : t.text = text := (congrArg Token.text hspell :)
  simp only [isOneOf, Bool.and_eq_true, Bool.or_eq_true, beq_iff_eq, List.contains_iff_mem, htext]
  refine ⟨And.right, fun hmem => ⟨?_, hmem⟩⟩
  rw [hkind]
  rcases hall text (htexts text hmem) with hkeyword | ⟨hoperator, hdots⟩
  · exact .inl (by rw [(spell_keyword hkeyword).2])
  · exact .inr (by rw [spell_operator hoperator hdots])

end Token

/-! ## 2. Scopes -/

/-- What is known after some tokens: for each open construct, innermost first,
whether it is a function with a name; whether the last token of the program opened
a function; whether the last token closed a function with a name. -/
structure Scope where
  named : List Bool
  opened : Bool
  declared : Bool
  deriving DecidableEq, Repr

namespace Scope

/-- Nothing is open. -/
def start : Scope := ⟨[], false, false⟩

/-- What one more token of the program makes of a scope. -/
def take (s : Scope) (t : Token) : Scope :=
  if s.opened && t.kind == .name then ⟨true :: s.named.tail, false, false⟩
  else
    let outer := if t.closes then s.named.tail else s.named
    ⟨if t.opens then false :: outer else outer, t.isKeyword "function",
      t.isKeyword "end" && s.named.head? == some true⟩

/-- What white space or a comment makes of a scope. -/
def pass (s : Scope) : Scope := { s with declared := false }

/-- The scope after one more token. -/
def after (s : Scope) (t : Token) : Scope :=
  if t.kind = .comment ∨ t.kind = .whitespace then s.pass else s.take t

/-- The scope after some tokens. -/
def ofTokens (tokens : List Token) : Scope := tokens.foldl after start

/-- The scope after a word, of which a minus is a token of its own. -/
def read (version : Version) (s : Scope) (word : String) : Scope :=
  (unsign word).foldl (fun s text => s.take (spell version text)) s

@[simp] theorem after_bare (s : Scope) (t : Token) : s.after t.bare = s.after t := rfl

/-- That a function was declared is no matter to what comes later. -/
@[simp] theorem take_pass (s : Scope) (t : Token) : s.pass.take t = s.take t := rfl

/-- A declared function is closed by an `end` where the innermost open construct
is a function with a name. -/
theorem declared_after (s : Scope) (t : Token) :
    (s.after t).declared = (t.isKeyword "end" && s.named.head? == some true) := by
  cases hend : t.isKeyword "end" with
  | true =>
    have hkind := (Token.isKeyword_iff.1 hend).1
    simp [after, take, hkind, hend]
  | false =>
    unfold after
    split
    · rfl
    · unfold take
      split
      · rfl
      · simp [hend]

/-! What words make of a scope, by what they open and close. -/

section

variable {version : Version} {named : List Bool} {opened declared : Bool} {text word : String}

theorem take_spell (hname : opened = true → (spell version text).kind ≠ .name) :
    take ⟨named, opened, declared⟩ (spell version text) =
      ⟨(if text ∈ openers then [false] else []) ++ if text ∈ closers then named.tail else named,
        text == "function", text == "end" && named.head? == some true⟩ := by
  have hopens : (spell version text).opens = true ↔ text ∈ openers :=
    Token.isOneOf_iff (fun _ h => List.mem_append_left _ h) rfl
  have hcloses : (spell version text).closes = true ↔ text ∈ closers :=
    Token.isOneOf_iff (fun _ h => List.mem_append_right _ h) rfl
  have hkeyword : ∀ w ∈ ["function", "end"], (spell version text).isKeyword w = (text == w) := by
    intro w hw
    have hbase : w ∈ Vocabulary.baseKeywords := by
      have hall : ∀ w ∈ ["function", "end"], w ∈ Vocabulary.baseKeywords := by decide
      exact hall w hw
    rw [Bool.eq_iff_iff, Token.isKeyword_iff, beq_iff_eq, spell_text]
    refine ⟨And.right, fun htext => ⟨?_, htext⟩⟩
    rw [htext, (spell_keyword hbase).2]
  have hno : (opened && (spell version text).kind == .name) = false := by
    cases opened with
    | false => rfl
    | true => simpa using hname rfl
  simp only [take, hno, hopens, hcloses, hkeyword "function" (by simp), hkeyword "end" (by simp)]
  by_cases hmem : text ∈ openers <;> simp [hmem]

/-- Nothing but an `end` closes a function. -/
theorem declared_take {s : Scope} (h : text ≠ "end") :
    (s.take (spell version text)).declared = false := by
  unfold take
  split
  · rfl
  · simp [Token.isKeyword, h]

/-- A word that opens and closes nothing. -/
theorem take_quiet (hname : opened = true → (spell version text).kind ≠ .name)
    (hquiet : text ∉ openers ++ closers) :
    take ⟨named, opened, declared⟩ (spell version text) = ⟨named, false, false⟩ := by
  have hwords : "function" ∈ openers ++ closers ∧ "end" ∈ openers ++ closers := by decide
  have hfunction : text ≠ "function" := fun h => hquiet (h ▸ hwords.1)
  have hend : text ≠ "end" := fun h => hquiet (h ▸ hwords.2)
  simp only [List.mem_append, not_or] at hquiet
  rw [take_spell hname]
  simp [hquiet, hfunction, hend]

/-- A word of one lexeme. -/
theorem read_plain {s : Scope} (h : unsign word = [word]) :
    s.read version word = s.take (spell version word) := by
  rw [read, h]
  rfl

/-- A word of two lexemes. -/
theorem read_signed {s : Scope} {minus number : String} (h : unsign word = [minus, number]) :
    s.read version word = (s.take (spell version minus)).take (spell version number) := by
  rw [read, h]
  rfl

/-- A word of one lexeme that is not the name of a function. -/
theorem read_word (hplain : unsign word = [word]) :
    read version ⟨named, false, declared⟩ word =
      ⟨(if word ∈ openers then [false] else []) ++ if word ∈ closers then named.tail else named,
        word == "function", word == "end" && named.head? == some true⟩ := by
  rw [read_plain hplain]
  exact take_spell nofun

/-- A word that opens and closes nothing, however many lexemes it has. -/
theorem read_quiet (hquiet : word ∉ openers ++ closers) :
    read version ⟨named, false, declared⟩ word = ⟨named, false, false⟩ := by
  have hnone : ∀ {text : String}, false = true → (spell version text).kind ≠ .name := nofun
  rcases unsign_cases word with hplain | ⟨number, -, hsigned⟩
  · rw [read_plain hplain, take_quiet hnone hquiet]
  · obtain ⟨-, hminus, hnumber⟩ := neutral_of_unsign hsigned
    simp only [Neutral, reserved, List.mem_append, not_or] at hminus hnumber
    rw [read_signed hsigned, take_quiet hnone (by simp [hminus]), take_quiet hnone (by simp [hnumber])]

/-- A name right after the word that opened a function. -/
theorem read_name (hplain : unsign word = [word]) (hname : (spell version word).kind = .name) :
    read version ⟨named, true, declared⟩ word = ⟨true :: named.tail, false, false⟩ := by
  rw [read_plain hplain, take, hname]
  rfl

end

end Scope

end LuaLayout
