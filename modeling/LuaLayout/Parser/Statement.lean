/-
LuaLayout.Parser.Statement — reading statements and blocks.

A keyword or operator that opens a statement decides its form by its text; any
other token starts an assignment or a call. The forms take their opening leaf
unseen: the choice has been made before.
-/
import LuaLayout.Parser.Expression

namespace LuaLayout

/-! ## 1. Forms -/

/-- The statements that an opening word or symbol announces. -/
inductive StatementForm
  | breakLoop
  | goto
  | label
  | empty
  | doBlock
  | whileLoop
  | repeatLoop
  | conditional
  | forLoop
  | function
  | localNames
  | result
  deriving DecidableEq, Repr

namespace StatementForm

/-- The openings and their forms. -/
def table : List (String × StatementForm) :=
  [("break", breakLoop), ("goto", goto), ("::", label), (";", empty), ("do", doBlock),
   ("while", whileLoop), ("repeat", repeatLoop), ("if", conditional), ("for", forLoop),
   ("function", function), ("local", localNames), ("return", result)]

/-- The form that a text opens. -/
def ofOpening? (text : String) : Option StatementForm := table.lookup text

/-- The form that a token opens: a keyword or operator, by its text. -/
def ofToken? (t : Token) : Option StatementForm :=
  if t.kind == .keyword || t.kind == .operator then ofOpening? t.text else none

end StatementForm

namespace Parser

/-! ## 2. Simple statements -/

/-- A jump out of the loop. -/
def breakLoop : Parser Stat := do return .breakLoop (← next)

/-- A jump to a label. -/
def goto : Parser Stat := do
  let word ← next
  return .goto word (← expectName)

/-- A label. -/
def label : Parser Stat := do
  let opening ← next
  let name ← expectName
  return .label opening name (← expect "::")

/-- A lone semicolon. -/
def empty : Parser Stat := do return .empty (← next)

/-- The token ends the statement that returns. -/
def endsResult (t : Token) : Bool :=
  (t.kind == .keyword || t.kind == .operator) && Vocabulary.returnEnds.contains t.text

/-- A return, with values unless the block ends or a semicolon or label follows. -/
def result (r : Rules) : Parser Stat := do
  let word ← next
  if (← current).all endsResult then return .result word none
  else return .result word (some (← expressions r))

/-! ## 3. Blocks and loops -/

/-- A block of its own. -/
def doBlock (r : Rules) : Parser Stat := do
  let word ← next
  let block ← r.block
  return .doBlock word block (← expect "end")

/-- A loop with its condition first. -/
def whileLoop (r : Rules) : Parser Stat := do
  let word ← next
  let condition ← r.expression 0
  let opening ← expect "do"
  let block ← r.block
  return .whileLoop word condition opening block (← expect "end")

/-- A loop with its condition last. -/
def repeatLoop (r : Rules) : Parser Stat := do
  let word ← next
  let block ← r.block
  let closing ← expect "until"
  return .repeatLoop word block closing (← r.expression 0)

/-- A condition and what is done under it, with the word before it. -/
def branch (r : Rules) : Parser Branch := do
  let word ← next
  let condition ← r.expression 0
  let opening ← expect "then"
  return .mk word condition opening (← r.block)

/-- Conditions tried in order, and what is done if none holds. -/
def conditional (r : Rules) : Parser Stat := do
  let first ← branch r
  let more ← many (ifSees "elseif" (branch r))
  let otherwise ← ifSees "else" (nextThen r.block)
  return .conditional first more otherwise (← expect "end")

/-- A loop over numbers or over what an iterator yields; the token after the
first name tells them apart. -/
def forLoop (r : Rules) : Parser Stat := do
  let word ← next
  let name ← expectName
  if ← sees "=" then
    let equals ← next
    let start ← r.expression 0
    let comma ← expect ","
    let stop ← r.expression 0
    let step ← ifSees "," (nextThen (r.expression 0))
    let opening ← expect "do"
    let block ← r.block
    return .countingLoop word name equals start comma stop step opening block (← expect "end")
  else
    let more ← moreAfter "," expectName
    let between ← expect "in"
    let values ← expressions r
    let opening ← expect "do"
    let block ← r.block
    return .iteration word name more between values opening block (← expect "end")

/-! ## 4. Declarations -/

/-- A function under a name, which may be a path and end in a method. -/
def function (r : Rules) : Parser Stat := do
  let word ← next
  let name ← expectName
  let path ← moreAfter "." expectName
  let method ← ifSees ":" (nextThen expectName)
  return .function word name path method (← body r)

/-- A mark between angle brackets. -/
def mark : Parser Mark := do
  let opening ← next
  let word ← expectName
  return ⟨opening, word, ← expect ">"⟩

/-- A local name with its mark. -/
def localName : Parser LocalName := do
  let name ← expectName
  return ⟨name, ← ifSees "<" mark⟩

/-- A local function or local names, with values if any are given. -/
def localNames (r : Rules) : Parser Stat := do
  let word ← next
  if ← sees "function" then
    let function ← next
    let name ← expectName
    return .localFunction word function name (← body r)
  else
    let first ← localName
    let more ← moreAfter "," localName
    return .localNames word first more (← ifSees "=" (nextThen (expressions r)))

/-! ## 5. Assignments and calls -/

/-- Complains about an access that cannot be assigned to, at its first token. -/
def requireAssignable (start : Option Token) (target : Access) : Parser Unit :=
  if target.kind = .assignable then pure () else failNear .malformed start

/-- An access that can be assigned to. -/
def assignable (r : Rules) : Parser Access := do
  let start ← current
  let target ← access r
  requireAssignable start target
  return target

/-- An assignment, or a call. -/
def assignmentOrCall (r : Rules) : Parser Stat := do
  let start ← current
  let first ← access r
  if (← sees ",") || (← sees "=") then
    requireAssignable start first
    let more ← moreAfter "," (assignable r)
    let equals ← expect "="
    return .assignment first more equals (← expressions r)
  else if first.kind = .call then return .call first
  else failNear .malformed start

/-! ## 6. Statements and blocks -/

/-- The statement of a form. -/
def statementOf (r : Rules) : StatementForm → Parser Stat
  | .breakLoop => breakLoop
  | .goto => goto
  | .label => label
  | .empty => empty
  | .doBlock => doBlock r
  | .whileLoop => whileLoop r
  | .repeatLoop => repeatLoop r
  | .conditional => conditional r
  | .forLoop => forLoop r
  | .function => function r
  | .localNames => localNames r
  | .result => result r

/-- A statement. -/
def statement (r : Rules) : Parser Stat := do
  match ← current with
  | none => refuse .noToken
  | some t =>
    match StatementForm.ofToken? t with
    | some form => statementOf r form
    | none => if (binaryPowers? t).isSome then fail .unexpectedBinary else assignmentOrCall r

/-- The token ends a block from outside. -/
def endsBlock (t : Token) : Bool := t.kind == .keyword && Vocabulary.blockEnds.contains t.text

/-- A statement, unless the block ends here. -/
def nextStatement (r : Rules) : Parser (Option Stat) := do
  if (← current).all endsBlock then return none else some <$> statement r

/-- Statements up to the end of the block or of the input. -/
def block (r : Rules) : Parser Block := do return .mk (← many (nextStatement r))

end Parser

/-! ## 7. The rules -/

namespace Rules

/-- The rules for programs that nest less deep than the given number. Blocks
may be refused, which leaves expressions without function bodies. -/
def ofDepth (blocks : Bool) : Nat → Rules
  | 0 => ⟨fun _ => Parser.refuse .tooDeep, Parser.refuse .tooDeep⟩
  | depth + 1 =>
    let inner := ofDepth blocks depth
    ⟨Parser.expression inner,
      if blocks then Parser.block inner else Parser.refuse .blockNotRendered⟩

/-- The rules for a number of leaves: each level of nesting takes a leaf, so
there is no deeper one. -/
def forLeaves (blocks : Bool) (leaves : List Leaf) : Rules := ofDepth blocks (leaves.length + 1)

end Rules

end LuaLayout
