/-
LuaLayout.Parser.Expression — reading expressions, tables and function bodies.

The rules for expressions and blocks hold each other, so each parser here takes
the two as given and uses them only behind a leaf that it has taken. An
expression is read under a limit: operators whose left power exceeds it belong
to the expression, and each right operand is read under the right power of its
operator.
-/
import LuaLayout.Parser.Basic
import LuaLayout.Powers
import LuaLayout.Vocabulary

namespace LuaLayout

/-- The two rules that all others are built on. -/
structure Rules where
  /-- An expression under a limit. -/
  expression : Int → Parser Expr
  /-- The statements up to the end of a block. -/
  block : Parser Block

namespace Parser

/-! ## 1. Expressions -/

/-- The token is a unary operator. -/
def isUnary (t : Token) : Bool := t.kind == .operator && Powers.unaryOperators.contains t.text

/-- The token is a literal. -/
def isLiteral (t : Token) : Bool :=
  t.kind == .number || t.kind == .string || t.kind == .constant

/-- The powers of a token that is a binary operator. -/
def binaryPowers? (t : Token) : Option Powers :=
  if t.kind == .operator then Powers.ofBinary? t.text else none

/-- The powers of a token that goes on with an expression under a limit. -/
def continuing? (limit : Int) (t : Token) : Option Powers :=
  (binaryPowers? t).filter (limit < ·.left)

/-- An operator that goes on with the expression, and its right operand. -/
def operation (r : Rules) (limit : Int) : Parser (Option (Leaf × Expr)) := do
  match (← current).bind (continuing? limit) with
  | none => return none
  | some powers => some <$> nextThen (r.expression powers.right)

/-- Expressions with commas between them. -/
def expressions (r : Rules) : Parser Exprs := do
  let first ← r.expression 0
  return .mk first (← moreAfter "," (r.expression 0))

/-! ## 2. Tables -/

/-- A field of a table. -/
def field (r : Rules) : Parser Field := do
  match ← current with
  | none => fail (.expected "\x7d")
  | some t =>
    if t.isOperator "[" then
      let opening ← next
      let key ← r.expression 0
      let closing ← expect "]"
      let equals ← expect "="
      return .keyed opening key closing equals (← r.expression 0)
    else if t.kind == .name && (← seesSecond "=") then
      let name ← next
      let equals ← next
      return .named name equals (← r.expression 0)
    else return .positional (← r.expression 0)

/-- The next token separates fields. -/
def seesSeparator : Parser Bool := do return (← sees ",") || (← sees ";")

/-- A separator and a field; a separator before the closing brace has none. -/
def nextField (r : Rules) : Parser (Option (Leaf × Field)) := do
  if (← seesSeparator) && !(← seesSecond "\x7d") then some <$> nextThen (field r) else return none

/-- A table constructor. -/
def table (r : Rules) : Parser Table := do
  let opening ← expect "\x7b"
  if ← sees "\x7d" then return .empty opening (← next)
  else
    let first ← field r
    let more ← many (nextField r)
    let trailing ← if ← seesSeparator then some <$> next else pure none
    return .fields opening first more trailing (← expect "\x7d")

/-! ## 3. Functions -/

/-- The token is an ellipsis that the grammar takes as one. -/
def isEllipsis (t : Token) : Bool := t.kind == .constant && t.text == Vocabulary.ellipsis

/-- A comma and a name, unless an ellipsis follows the comma. -/
def nextParameter : Parser (Option (Leaf × Leaf)) := do
  if (← sees ",") && !((tokenAt 1 (← get)).any isEllipsis) then some <$> nextThen expectName
  else return none

/-- The parameters of a function: an ellipsis may stand last, or alone. -/
def parameters : Parser Parameters := do
  let opening ← expect "("
  if ← sees ")" then return .none opening (← expect ")")
  else if ← currentIs isEllipsis then
    let first ← next
    return .some opening first [] (← expect ")")
  else
    let first ← expectName
    let names ← many nextParameter
    let last ← ifSees "," (nextThen next)
    return .some opening first (names ++ last.toList) (← expect ")")

/-- A function without its name. -/
def body (r : Rules) : Parser Body := do
  let parameters ← parameters
  let block ← r.block
  return .mk parameters block (← expect "end")

/-! ## 4. Operands -/

/-- One step of an access: a string, member, index, table or argument list. -/
def suffix (r : Rules) : Parser (Option Suffix) := do
  match ← current with
  | none => return none
  | some t =>
    if t.kind == .string then return some (.text (← next))
    else if t.isOperator "." || t.isOperator ":" then
      let separator ← next
      return some (.member separator (← expectName))
    else if t.isOperator "[" then
      let opening ← next
      let key ← r.expression 0
      return some (.index opening key (← expect "]"))
    else if t.isOperator "\x7b" then return some (.table (← table r))
    else if t.isOperator "(" then
      let opening ← next
      if ← sees ")" then return some (.call opening none (← expect ")"))
      else
        let arguments ← expressions r
        return some (.call opening (some arguments) (← expect ")"))
    else return none

/-- What an access starts from. -/
def root (r : Rules) : Parser Root := do
  match ← current with
  | none => fail .unexpectedSymbol
  | some t =>
    if t.isOperator "(" then
      let opening ← next
      let inner ← r.expression 0
      return .group opening inner (← expect ")")
    else if t.kind == .name then return .name (← next)
    else fail .unexpectedSymbol

/-- A name or group with its suffixes. -/
def access (r : Rules) : Parser Access := do
  let root ← root r
  return .mk root (← many (suffix r))

/-- An operand without unary operator. -/
def simple (r : Rules) : Parser Operand := do
  match ← current with
  | none => refuse .noToken
  | some t =>
    if isLiteral t then return .literal (← next)
    else if t.isOperator "\x7b" then return .table (← table r)
    else if t.isKeyword "function" then
      let word ← next
      return .function word (← body r)
    else return .access (← access r)

/-- An operand; that of a unary operator is an expression under its own limit. -/
def operand (r : Rules) : Parser Operand := do
  match ← current with
  | none => fail .expectedExpression
  | some t =>
    if isUnary t then
      let operator ← next
      return .unary operator (← r.expression Powers.unary)
    else simple r

/-- An expression under a limit. -/
def expression (r : Rules) (limit : Int) : Parser Expr := do
  let operand ← operand r
  return .mk operand (← many (operation r limit))

end Parser

end LuaLayout
