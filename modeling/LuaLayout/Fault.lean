/-
LuaLayout.Fault — why a text cannot be formatted, and how that is told.

A fault names its cause; a report is what is shown of it: a category, a message
and a position. The wording of every message stands here and nowhere else.
-/
import LuaLayout.Token

namespace LuaLayout

/-! ## 1. Reports -/

/-- The broad kinds of failure. -/
inductive Category
  | general
  | lexical
  | operator
  | grammar
  deriving DecidableEq, Repr

namespace Category

/-- Every category. -/
def all : List Category := [general, lexical, operator, grammar]

/-- The name that a report opens with. -/
def label : Category → String
  | general => "LuaFormatError"
  | lexical => "LexError"
  | operator => "OperatorError"
  | grammar => "GrammarError"

/-- The short name of a category. -/
def key : Category → String
  | general => "error"
  | lexical => "lex"
  | operator => "operator"
  | grammar => "grammar"

/-- The category with a given label. -/
def ofLabel? (word : String) : Option Category := all.find? (·.label == word)

end Category

/-- What is shown of a failure. -/
structure Report where
  category : Category
  message : String
  pos : Position
  deriving DecidableEq, Repr

namespace Report

/-- The report on one line. -/
def describe (r : Report) : String :=
  "[" ++ r.category.label ++ "] " ++ toString r.pos.line ++ ":" ++ toString r.pos.col ++ ": " ++
    r.message

end Report

/-! ## 2. Causes -/

/-- What keeps a text from being lexed, or a lexeme from being classified. -/
inductive LexicalCause
  | unfinishedComment
  | unfinishedLongString
  | unfinishedString
  | invalidCharacters
  deriving DecidableEq, Repr

namespace LexicalCause

/-- The wording of a lexical cause. -/
def message : LexicalCause → String
  | unfinishedComment => "unfinished long comment"
  | unfinishedLongString => "unfinished long string"
  | unfinishedString => "unfinished string"
  | invalidCharacters => "invalid characters"

end LexicalCause

/-- What the grammar misses at a token. -/
inductive Complaint
  | expected (text : String)
  | expectedName
  | expectedExpression
  | unexpectedSymbol
  | unexpectedEnd
  | unexpectedBinary
  | malformed
  | other (text : String)
  deriving DecidableEq, Repr

namespace Complaint

/-- The wording of a complaint, without the place. -/
def message : Complaint → String
  | expected text => "'" ++ text ++ "' expected"
  | expectedName => "<name> expected"
  | expectedExpression => "expression expected"
  | unexpectedSymbol => "unexpected symbol"
  | unexpectedEnd => "unexpected end of input"
  | unexpectedBinary => "unexpected binary operator"
  | malformed => "syntax error"
  | other text => text

end Complaint

/-- Failures that no source text leads to: they answer requests made of the
walker from outside. -/
inductive Refusal
  /-- A function body was met while statement blocks are not rendered. -/
  | blockNotRendered
  /-- A statement or operand was asked for where no token is left. -/
  | noToken
  /-- The nesting exceeded the depth that the tokens allow. -/
  | tooDeep
  deriving DecidableEq, Repr

namespace Refusal

/-- The wording of a refusal. -/
def message : Refusal → String
  | blockNotRendered => "statement blocks are rendered by BlockEngine"
  | noToken => "no token is left"
  | tooDeep => "nesting is too deep"

end Refusal

/-- Why a text, or a request, cannot be answered. -/
inductive Fault
  | lexical (cause : LexicalCause) (pos : Position)
  | operator (text : String) (pos : Position)
  /-- A complaint near a text, or near the end of the input. -/
  | grammar (complaint : Complaint) (near : Option String) (pos : Position)
  | refused (cause : Refusal)
  deriving DecidableEq, Repr

namespace Fault

/-- The place of a complaint in words: a text in quotes or the end of the input. -/
def nearText : Option String → String
  | some text => "'" ++ text ++ "'"
  | none => "<eof>"

/-- What is shown of a fault. -/
def report : Fault → Report
  | lexical cause pos => ⟨.lexical, cause.message, pos⟩
  | operator text pos => ⟨.operator, "invalid operator '" ++ text ++ "'", pos⟩
  | grammar complaint near pos => ⟨.grammar, complaint.message ++ " near " ++ nearText near, pos⟩
  | refused cause => ⟨.general, cause.message, Position.start⟩

end Fault

end LuaLayout
