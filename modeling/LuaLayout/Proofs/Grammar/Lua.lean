/-
LuaLayout.Proofs.Grammar.Lua — the grammar of programs.

The rules are written out in the order of a manual. What a return carries is left
open: a list that is optional like any other part, or one that stands unless the
next token is among those that end a return. An access knows what it ends with,
since a target of an assignment must not end in a call, and a statement must; so
its suffixes are a rule that counts along. Parameters and fields look two tokens
ahead where a comma may be followed by an ellipsis or by nothing at all.
-/
import LuaLayout.Parser.Statement
import LuaLayout.Proofs.Grammar.Forms
import LuaLayout.Proofs.Parser.Accesses
import LuaLayout.Proofs.Tokens.Spelling

namespace LuaLayout

namespace Grammar

/-! ## 1. Rules -/

/-- What the grammar has rules for. -/
inductive Name
  | block
  | stat
  | att
  | body
  | parameters
  | explist
  | exp
  | operand
  | simple
  /-- A name or a group with suffixes, which ends as told. -/
  | access (kind : AccessKind)
  /-- The suffixes of an access that ends in the first way so far, and in the
  second way after them. -/
  | suffixes (last kind : AccessKind)
  | member
  | argument
  | table
  | field

/-- The operator with the text. -/
abbrev sym (text : String) : Form Name := .token (·.isOperator text)

/-- The keyword with the text. -/
abbrev word (text : String) : Form Name := .token (·.isKeyword text)

/-- A name. -/
abbrev name : Form Name := .token (·.kind == .name)

/-- A string. -/
abbrev string : Form Name := .token (·.kind == .string)

/-- A number, a string, or a constant: nil, true, false or an ellipsis. -/
abbrev literal : Form Name :=
  .token fun t => t.kind == .number || t.kind == .string || t.kind == .constant

/-- Three dots. -/
abbrev ellipsis : Form Name := .token fun t => t.kind == .constant && t.text == "..."

/-- A unary operator. -/
abbrev unop : Form Name :=
  .token fun t => t.kind == .operator && ["-", "#", "not", "~"].contains t.text

/-- The binary operators. -/
def binaryOperators : List String :=
  ["or", "and", "<", ">", "<=", ">=", "~=", "==", "|", "~", "&", "<<", ">>", "..", "+", "-", "*",
   "/", "//", "%", "^"]

/-- A binary operator. -/
abbrev binop : Form Name := .token fun t => t.kind == .operator && binaryOperators.contains t.text

/-- The token ends a return that carries nothing. -/
def endsReturn (t : Token) : Bool :=
  (t.kind == .keyword || t.kind == .operator) &&
    ["end", "else", "elseif", "until", ";", "::"].contains t.text

open Form (inOrder oneOf maybe many rule)

/-- Values that are optional like any other part. -/
def optionalValues : Form Name := maybe 1 (rule .explist)

/-- Values that are left out exactly where a return must end: before the end of
the block or of the input, a semicolon or a label. -/
def guardedValues : Form Name :=
  oneOf [.ahead (·.all endsReturn), inOrder [.ahead (!·.all endsReturn), rule .explist]]

/-- The rules, given what a return carries. -/
def rules (values : Form Name) : Name → Form Name
  | .block => many 1 (rule .stat)
  | .stat => oneOf [
      sym ";",
      word "break",
      inOrder [word "goto", name],
      inOrder [sym "::", name, sym "::"],
      inOrder [word "do", rule .block, word "end"],
      inOrder [word "while", rule .exp, word "do", rule .block, word "end"],
      inOrder [word "repeat", rule .block, word "until", rule .exp],
      inOrder [word "if", rule .exp, word "then", rule .block,
        many 1 (inOrder [word "elseif", rule .exp, word "then", rule .block]),
        maybe 1 (inOrder [word "else", rule .block]), word "end"],
      inOrder [word "for", name, sym "=", rule .exp, sym ",", rule .exp,
        maybe 1 (inOrder [sym ",", rule .exp]), word "do", rule .block, word "end"],
      inOrder [word "for", name, many 1 (inOrder [sym ",", name]), word "in", rule .explist,
        word "do", rule .block, word "end"],
      inOrder [word "function", name, many 1 (inOrder [sym ".", name]),
        maybe 1 (inOrder [sym ":", name]), rule .body],
      inOrder [word "local", word "function", name, rule .body],
      inOrder [word "local", rule .att, many 1 (inOrder [sym ",", rule .att]),
        maybe 1 (inOrder [sym "=", rule .explist])],
      inOrder [word "return", values],
      inOrder [rule (.access .assignable), many 1 (inOrder [sym ",", rule (.access .assignable)]),
        sym "=", rule .explist],
      rule (.access .call)]
  | .att => inOrder [name, maybe 1 (inOrder [sym "<", name, sym ">"])]
  | .body => inOrder [rule .parameters, rule .block, word "end"]
  | .parameters => inOrder [sym "(",
      maybe 1 (oneOf [
        inOrder [name, many 2 (inOrder [sym ",", name]), maybe 1 (inOrder [sym ",", ellipsis])],
        ellipsis]),
      sym ")"]
  | .explist => inOrder [rule .exp, many 1 (inOrder [sym ",", rule .exp])]
  | .exp => inOrder [rule .operand, many 1 (inOrder [binop, rule .operand])]
  | .operand => inOrder [many 1 unop, rule .simple]
  | .simple => oneOf [literal, rule .table, inOrder [word "function", rule .body],
      rule (.access .call), rule (.access .assignable), rule (.access .parenthesized)]
  | .access kind => oneOf [
      inOrder [name, rule (.suffixes .assignable kind)],
      inOrder [sym "(", rule .exp, sym ")", rule (.suffixes .parenthesized kind)]]
  | .suffixes last kind => oneOf [
      inOrder [rule .member, rule (.suffixes .assignable kind)],
      inOrder [rule .argument, rule (.suffixes .call kind)],
      -- The access ends where no suffix goes on, and there it has to end as told.
      if last = kind then .absent 1 (oneOf [rule .member, rule .argument]) else oneOf []]
  | .member => oneOf [inOrder [sym ".", name], inOrder [sym ":", name],
      inOrder [sym "[", rule .exp, sym "]"]]
  | .argument => oneOf [inOrder [sym "(", maybe 1 (rule .explist), sym ")"], rule .table, string]
  | .table => inOrder [sym "\x7b",
      maybe 1 (inOrder [rule .field,
        many 2 (inOrder [oneOf [sym ",", sym ";"], rule .field]),
        maybe 1 (oneOf [sym ",", sym ";"])]),
      sym "\x7d"]
  | .field => oneOf [inOrder [sym "[", rule .exp, sym "]", sym "=", rule .exp],
      inOrder [name, sym "=", rule .exp], rule .exp]

/-! ## 2. First tokens -/

/-- The token begins an access. -/
def opensAccess (t : Token) : Bool := t.kind == .name || t.isOperator "("

/-- A rule may take no token. -/
def empty : Name → Bool
  | .block | .suffixes _ _ => true
  | _ => false

/-- A rule may begin with the token. -/
def first : Name → Token → Bool
  | .block, t | .stat, t => (StatementForm.ofToken? t).isSome || opensAccess t
  | .att, t => t.kind == .name
  | .body, t | .parameters, t => t.isOperator "("
  | .explist, t | .exp, t | .operand, t | .simple, t => t.startsExpr
  | .access _, t => opensAccess t
  | .suffixes _ _, t => t.startsSuffix
  | .member, t => t.isOperator "." || t.isOperator ":" || t.isOperator "["
  | .argument, t => t.isOperator "(" || t.isOperator "\x7b" || t.kind == .string
  | .table, t => t.isOperator "\x7b"
  | .field, t => t.isOperator "[" || t.startsExpr

theorem ofToken?_keyword {t : Token} {text : String} (h : t.isKeyword text = true) :
    StatementForm.ofToken? t = StatementForm.ofOpening? text := by
  obtain ⟨hkind, rfl⟩ := Token.isKeyword_iff.1 h
  rw [StatementForm.ofToken?, hkind]
  rfl

theorem ofToken?_operator {t : Token} {text : String} (h : t.isOperator text = true) :
    StatementForm.ofToken? t = StatementForm.ofOpening? text := by
  obtain ⟨hkind, rfl⟩ := Token.isOperator_iff.1 h
  rw [StatementForm.ofToken?, hkind]
  rfl

/-- The first tokens are those that the rules begin with. -/
theorem begins (values : Form Name) : Form.Begins (rules values) empty first where
  nullable n h := by
    cases n with
    | block => rfl
    | suffixes last kind => rfl
    | _ => simp [rules, empty] at h
  heads n x h := by
    cases n with
    | block => exact h
    | stat =>
      simp only [rules, empty, first, Form.heads_oneOf_cons, Form.heads_inOrder_cons,
        Form.heads_oneOf_nil, Form.heads, Form.nullable, Bool.false_and, Bool.or_false,
        Bool.or_eq_true] at h ⊢
      rcases h with h | h | h | h | h | h | h | h | h | h | h | h | h | h | h | h
      case inl | inr.inr.inr.inl => exact .inl (by rw [ofToken?_operator h]; rfl)
      case inr.inr.inr.inr.inr.inr.inr.inr.inr.inr.inr.inr.inr.inr.inl => exact .inr h
      case inr.inr.inr.inr.inr.inr.inr.inr.inr.inr.inr.inr.inr.inr.inr => exact .inr h
      all_goals exact .inl (by rw [ofToken?_keyword h]; rfl)
    | operand =>
      have h' : Parser.isUnary x = true ∨ x.startsExpr = true := by
        simpa [rules, empty, first, Parser.isUnary, Powers.unaryOperators] using h
      rcases h' with h' | h'
      · simp [first, Token.startsExpr, h']
      · exact h'
    | simple =>
      have h' : (Parser.isLiteral x = true ∨ x.isOperator "\x7b" = true) ∨
          x.isKeyword "function" = true ∨ opensAccess x = true := by
        simpa [rules, empty, first, Parser.isLiteral, or_assoc] using h
      simp only [opensAccess, Bool.or_eq_true] at h'
      rcases h' with (h' | h') | h' | h' | h' <;> simp_all [first, Token.startsExpr]
    | access kind => simpa [rules, empty, first, opensAccess] using h
    | suffixes last kind =>
      have h' : (x.isOperator "." = true ∨ x.isOperator ":" = true) ∨ x.isOperator "[" = true ∨
          (x.isOperator "(" = true ∨ x.isOperator "\x7b" = true) ∨ x.kind = .string := by
        simp only [rules] at h
        split at h <;> simpa [empty, first, or_assoc] using h
      rcases h' with (h' | h') | h' | (h' | h') | h' <;> simp [first, Token.startsSuffix, h']
    | member => simpa [rules, empty, first, or_assoc] using h
    | argument => simpa [rules, empty, first, or_assoc] using h
    | field =>
      have h' : x.isOperator "[" = true ∨ x.kind = .name ∨ x.startsExpr = true := by
        simpa [rules, empty, first] using h
      rcases h' with h' | h' | h'
      · simp [first, h']
      · simp [first, Token.startsExpr, h']
      · simp [first, h']
    | _ => simpa [rules, empty, first] using h

/-- A statement does not begin with what ends a block. -/
theorem not_endsBlock_of_first {t : Token} (h : first .stat t = true) :
    Parser.endsBlock t = false := by
  have hopening : ∀ form : StatementForm, form.opening ∉ Vocabulary.blockEnds := by
    intro form
    cases form <;> decide
  simp only [first, opensAccess, Bool.or_eq_true, beq_iff_eq] at h
  rw [Parser.endsBlock, Bool.and_eq_false_iff]
  rcases h with h | h | h
  · obtain ⟨form, hform⟩ := Option.isSome_iff_exists.1 h
    have htext : t.text = form.opening := Leaf.Opens.saying (l := ⟨t, []⟩) hform
    refine .inr (Bool.eq_false_iff.2 fun hmem => hopening form ?_)
    rw [← htext]
    exact List.contains_iff_mem.1 hmem
  · exact .inl (by rw [h]; rfl)
  · exact .inl (by rw [(Token.isOperator_iff.1 h).1]; rfl)

/-- Nor with a comma or an equals sign. -/
theorem noneOf_of_first {version : Version} {t : Token} (h : first .stat t = true)
    (hgood : t.Genuine version) : t.text ∉ [",", "="] := by
  have hopening : ∀ form : StatementForm, form.opening ∉ [",", "="] := by
    intro form
    cases form <;> decide
  simp only [first, opensAccess, Bool.or_eq_true, beq_iff_eq] at h
  rcases h with h | h | h
  · obtain ⟨form, hform⟩ := Option.isSome_iff_exists.1 h
    have htext : t.text = form.opening := Leaf.Opens.saying (l := ⟨t, []⟩) hform
    rw [htext]
    exact hopening form
  · intro hmem
    have hbase : ∀ text ∈ [",", "="], text ∈ Vocabulary.baseOperators := by decide
    have hkind := (Token.isOperator_iff.1 (hgood.isOperator_of_text (hbase _ hmem) rfl)).1
    rw [h] at hkind
    cases hkind
  · rw [(Token.isOperator_iff.1 h).2]
    decide

end Grammar

end LuaLayout
