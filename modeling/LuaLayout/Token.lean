/-
LuaLayout.Token — positions, token kinds and tokens.

A token is a text of one kind at a position. The lexer gives the first thirteen
kinds; classification turns their variants into the four that follow. A token
is a plain value: nothing ties its kind to its text, so that every later stage
can be asked about any sequence of tokens.
-/
import LuaLayout.Text.Quoted

namespace LuaLayout

/-! ## 1. Positions -/

/-- A line and a column, both counted from one at the start of a text. -/
structure Position where
  line : Int
  col : Int
  deriving DecidableEq, Repr

namespace Position

/-- Where a text starts. -/
def start : Position := ⟨1, 1⟩

/-- The position after one more character: a line feed starts the next line. -/
def step (p : Position) (c : Char) : Position :=
  if c = '\n' then ⟨p.line + 1, 1⟩ else ⟨p.line, p.col + 1⟩

/-- The position after a text. -/
def advance (p : Position) (text : List Char) : Position := text.foldl step p

@[simp] theorem advance_nil (p : Position) : p.advance [] = p := rfl

theorem advance_append (p : Position) (s t : List Char) :
    p.advance (s ++ t) = (p.advance s).advance t := List.foldl_append

end Position

/-! ## 2. Kinds -/

/-- What a token is. -/
inductive TokenKind
  | name
  | sciHexNumber
  | hexNumber
  | sciNumber
  | number
  | blockComment
  | lineComment
  | blockQuote
  | doubleQuoted
  | singleQuoted
  | operator
  | whitespace
  | invalid
  | keyword
  | constant
  | string
  | comment
  deriving DecidableEq, Repr

namespace TokenKind

/-- Every kind, those of the lexer first. -/
def all : List TokenKind :=
  [name, sciHexNumber, hexNumber, sciNumber, number, blockComment, lineComment, blockQuote,
   doubleQuoted, singleQuoted, operator, whitespace, invalid, keyword, constant, string, comment]

/-- The word that shows a kind. -/
def label : TokenKind → String
  | name => "NAME"
  | sciHexNumber => "SCIHEXNUMBER"
  | hexNumber => "HEXNUMBER"
  | sciNumber => "SCINUMBER"
  | number => "NUMBER"
  | blockComment => "BLOCKCOMMENT"
  | lineComment => "LINECOMMENT"
  | blockQuote => "BLOCKQUOTE"
  | doubleQuoted => "DQUOTE"
  | singleQuoted => "SQUOTE"
  | operator => "OPERATOR"
  | whitespace => "WHITESPACE"
  | invalid => "INVALID"
  | keyword => "KEYWORD"
  | constant => "CONSTANT"
  | string => "STRING"
  | comment => "COMMENT"

/-- The kind that a word shows. -/
def ofLabel? (word : String) : Option TokenKind := all.find? (·.label == word)

end TokenKind

/-! ## 3. Tokens -/

/-- A text of one kind at a position. -/
structure Token where
  kind : TokenKind
  text : String
  pos : Position
  deriving DecidableEq, Repr

namespace Token

/-- The operator with the given text. -/
def isOperator (t : Token) (text : String) : Bool := t.kind == .operator && t.text == text

/-- The keyword with the given text. -/
def isKeyword (t : Token) (text : String) : Bool := t.kind == .keyword && t.text == text

theorem isOperator_iff {t : Token} {text : String} :
    t.isOperator text = true ↔ t.kind = .operator ∧ t.text = text := by
  simp [isOperator]

theorem isKeyword_iff {t : Token} {text : String} :
    t.isKeyword text = true ↔ t.kind = .keyword ∧ t.text = text := by
  simp [isKeyword]

/-- The text begins with the character. -/
def startsWith (t : Token) (c : Char) : Bool := t.text.toList.head? == some c

/-- A token on one line: kind, quoted text and position. -/
def describe (t : Token) : String :=
  t.kind.label ++ "(" ++ String.ofList (Text.Quoted.encode t.text.toList) ++ ") at " ++
    toString t.pos.line ++ ":" ++ toString t.pos.col

end Token

end LuaLayout
