/-
LuaLayout.Tree — Lua programs as trees that keep every token.

A leaf is a token with the comments right after it, so a tree holds all that
was read and nothing else. An expression is an operand followed by operators
with their right operands; the operators of one expression apply from left to
right, and whatever binds tighter is an expression of its own on the right. A
unary operator, like a bracket, holds an expression.
-/
import LuaLayout.Token

namespace LuaLayout

/-! ## 1. Leaves -/

/-- A token and the comments between it and the next one. -/
structure Leaf where
  token : Token
  comments : List Token
  deriving DecidableEq, Repr

namespace Leaf

/-- The token and the comments, in order. -/
def tokens (l : Leaf) : List Token := l.token :: l.comments

/-- The token is a comment. -/
def isComment (t : Token) : Bool := t.kind == .comment

/-- The leaves of tokens in order, and the comments before the first one. -/
def ofTokens : List Token → List Token × List Leaf
  | [] => ([], [])
  | t :: rest =>
    let (comments, leaves) := ofTokens rest
    if isComment t then (t :: comments, leaves) else ([], ⟨t, comments⟩ :: leaves)

/-- Leaves keep every token in its place. -/
theorem ofTokens_append (tokens : List Token) :
    (ofTokens tokens).1 ++ (ofTokens tokens).2.flatMap Leaf.tokens = tokens := by
  induction tokens with
  | nil => rfl
  | cons t rest ih =>
    unfold ofTokens
    split
    next comments leaves hrest =>
      rw [hrest] at ih
      split <;> simpa [Leaf.tokens] using ih

end Leaf

/-! ## 2. Parts without expressions -/

/-- A mark between angle brackets. -/
structure Mark where
  opening : Leaf
  word : Leaf
  closing : Leaf
  deriving DecidableEq, Repr

/-- A declared local name, with a mark if it has one. -/
structure LocalName where
  name : Leaf
  mark : Option Mark
  deriving DecidableEq, Repr

/-- The parameters of a function: names, the last of which may be an ellipsis. -/
inductive Parameters
  | none (opening closing : Leaf)
  | some (opening first : Leaf) (more : List (Leaf × Leaf)) (closing : Leaf)
  deriving DecidableEq, Repr

/-! ## 3. Expressions and statements -/

mutual

/-- An operand and the operators after it with their right operands. -/
inductive Expr
  | mk (operand : Operand) (operations : List (Leaf × Expr))

/-- What operators apply to. -/
inductive Operand
  | unary (operator : Leaf) (argument : Expr)
  | literal (value : Leaf)
  | table (fields : Table)
  | function (word : Leaf) (body : Body)
  | access (path : Access)

/-- A name or group followed by calls, members and indexes. -/
inductive Access
  | mk (root : Root) (suffixes : List Suffix)

/-- What an access starts from. -/
inductive Root
  | name (name : Leaf)
  | group (opening : Leaf) (inner : Expr) (closing : Leaf)

/-- One step of an access. -/
inductive Suffix
  | text (string : Leaf)
  | member (separator name : Leaf)
  | index (opening : Leaf) (key : Expr) (closing : Leaf)
  | table (fields : Table)
  | call (opening : Leaf) (arguments : Option Exprs) (closing : Leaf)

/-- Expressions with commas between them. -/
inductive Exprs
  | mk (first : Expr) (more : List (Leaf × Expr))

/-- A table constructor: fields with separators, of which the last may stand
before the closing brace. -/
inductive Table
  | empty (opening closing : Leaf)
  | fields (opening : Leaf) (first : Field) (more : List (Leaf × Field)) (trailing : Option Leaf)
      (closing : Leaf)

/-- A field of a table. -/
inductive Field
  | keyed (opening : Leaf) (key : Expr) (closing equals : Leaf) (value : Expr)
  | named (name equals : Leaf) (value : Expr)
  | positional (value : Expr)

/-- A function without its name. -/
inductive Body
  | mk (parameters : Parameters) (block : Block) (closing : Leaf)

/-- Statements in a row. -/
inductive Block
  | mk (statements : List Stat)

/-- A statement. -/
inductive Stat
  | breakLoop (word : Leaf)
  | goto (word target : Leaf)
  | label (opening name closing : Leaf)
  | empty (semicolon : Leaf)
  | doBlock (word : Leaf) (block : Block) (closing : Leaf)
  | whileLoop (word : Leaf) (condition : Expr) (opening : Leaf) (block : Block) (closing : Leaf)
  | repeatLoop (word : Leaf) (block : Block) (closing : Leaf) (condition : Expr)
  | conditional (first : Branch) (more : List Branch) (otherwise : Option (Leaf × Block))
      (closing : Leaf)
  | countingLoop (word name equals : Leaf) (start : Expr) (comma : Leaf) (stop : Expr)
      (step : Option (Leaf × Expr)) (opening : Leaf) (block : Block) (closing : Leaf)
  | iteration (word name : Leaf) (more : List (Leaf × Leaf)) (between : Leaf) (values : Exprs)
      (opening : Leaf) (block : Block) (closing : Leaf)
  | function (word name : Leaf) (path : List (Leaf × Leaf)) (method : Option (Leaf × Leaf))
      (body : Body)
  | localFunction (word function name : Leaf) (body : Body)
  | localNames (word : Leaf) (first : LocalName) (more : List (Leaf × LocalName))
      (values : Option (Leaf × Exprs))
  | result (word : Leaf) (values : Option Exprs)
  | assignment (first : Access) (more : List (Leaf × Access)) (equals : Leaf) (values : Exprs)
  | call (callee : Access)

/-- A condition and what is done under it. -/
inductive Branch
  | mk (word : Leaf) (condition : Expr) (opening : Leaf) (block : Block)

end

/-! ## 4. First leaves -/

namespace Table

/-- The opening brace. -/
def head : Table → Leaf
  | empty opening _ => opening
  | fields opening _ _ _ _ => opening

end Table

namespace Access

/-- The name or opening bracket. -/
def head : Access → Leaf
  | mk (.name name) _ => name
  | mk (.group opening _ _) _ => opening

end Access

namespace Operand

/-- The leaf that an operand begins with. -/
def head : Operand → Leaf
  | unary operator _ => operator
  | literal value => value
  | table fields => fields.head
  | function word _ => word
  | access path => path.head

end Operand

namespace Expr

/-- The leaf that an expression begins with. -/
def head : Expr → Leaf
  | mk operand _ => operand.head

end Expr

/-! ## 5. What an access stands for -/

/-- How an access ends, which decides where it may stand. -/
inductive AccessKind
  | call
  | assignable
  | parenthesized
  deriving DecidableEq, Repr

namespace AccessKind

/-- The word for a kind. -/
def label : AccessKind → String
  | call => "call"
  | assignable => "variable"
  | parenthesized => "parenthesized"

end AccessKind

namespace Suffix

/-- What a suffix makes of an access. -/
def kind : Suffix → AccessKind
  | text _ => .call
  | member _ _ => .assignable
  | index _ _ _ => .assignable
  | table _ => .call
  | call _ _ _ => .call

end Suffix

namespace Root

/-- What a root is without suffixes. -/
def kind : Root → AccessKind
  | name _ => .assignable
  | group _ _ _ => .parenthesized

end Root

namespace Access

/-- The last suffix decides, or the root if there is none. -/
def kind : Access → AccessKind
  | mk root suffixes => (suffixes.getLast?.map Suffix.kind).getD root.kind

end Access

namespace Stat

/-- The statement declares a named function. -/
def declaresFunction : Stat → Bool
  | function .. => true
  | localFunction .. => true
  | _ => false

end Stat

end LuaLayout
