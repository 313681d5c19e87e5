/-
LuaLayout.Proofs.Session.Methods — the methods that go through a program.

Each method reads its part of the grammar and puts it down as it goes: a word is
written once the leaf is taken, names that belong together are gathered and written
at once, and a loop decides after each round whether there is another. Expressions
and blocks hold each other, so the methods take the two as given and use them only
behind a leaf that was taken.
-/
import LuaLayout.Proofs.Session.Renderer

namespace LuaLayout.Renderer

/-- The two methods that all others are built on. -/
structure Rules where
  /-- An expression at an indentation, under a limit. -/
  expression : Int → Int → Renderer Unit
  /-- The statements up to the end of a block. -/
  block : Int → Renderer Unit

/-! ## 1. Expressions -/

/-- Goes on where the next token has the given text. -/
def ifSees (text : String) (w : Renderer Unit) : Renderer Unit := do
  if ← sees text then w else return ()

/-- Puts marks around what is put down, if groups are to be shown. -/
def showingGroup (w : Renderer Unit) : Renderer Unit := do
  if ← ask (·.style.groups) then
    write "<"
    w
    write ">"
  else w

/-- Writes the bracket that opens an index, apart from a long string, and tells whether
the one that closes it has to stand apart as well. -/
def openIndex : Renderer Bool := call .openIndex do
  let apart := (← current).any fun t => t.kind == .string && t.startsWith '['
  write "["
  spaceWhere apart
  return apart

/-- An operator that goes on with the expression, and its right operand. -/
def operation (r : Rules) (indent limit : Int) : Renderer (ForInStep Unit) := do
  match ← current with
  | none => return .done ()
  | some t =>
    match Parser.continuing? limit t with
    | none => return .done ()
    | some powers =>
      let _ ← next
      space
      write t.text
      space
      r.expression indent powers.right
      return .yield ()

/-- A comma and an expression. -/
def nextExpression (r : Rules) (indent : Int) : Renderer (ForInStep Unit) := do
  if ← sees "," then
    let _ ← next
    write ","
    space
    r.expression indent 0
    return .yield ()
  else return .done ()

/-- Expressions with commas between them. -/
def expressions (r : Rules) (indent : Int) : Renderer Unit := call .expressions do
  r.expression indent 0
  loop (fun _ => nextExpression r indent) ()

/-! ## 2. Tables -/

/-- A field of a table. -/
def field (r : Rules) (indent : Int) : Renderer Unit := call .field do
  match ← current with
  | none => fail (.expected "\x7d")
  | some t =>
    if t.isOperator "[" then
      let _ ← next
      let apart ← openIndex
      r.expression indent 0
      let _ ← expect "]"
      let _ ← expect "="
      spaceWhere apart
      write "]"
      space
      write "="
      space
      r.expression indent 0
    else if t.kind == .name && (← check "=" 1) then
      let _ ← next
      let _ ← next
      write t.text
      space
      write "="
      space
      r.expression indent 0
    else r.expression indent 0

/-- The separator behind a field, and whether another field follows. -/
def separator : Renderer (ForInStep Unit) := do
  if (← sees ",") || (← sees ";") then
    let _ ← next
    if ← sees "\x7d" then return .done ()
    else
      write ","
      return .yield ()
  else if ← sees "\x7d" then return .done ()
  else fail (.expected "\x7d")

/-- A field on a line of its own, and what stands behind it. -/
def nextField (r : Rules) (indent : Int) : Renderer (ForInStep Unit) := do
  lineBreak indent indent false
  field r indent
  separator

/-- The closing brace of a table, on a line of its own. -/
def closeTable (indent : Int) : Renderer Unit := do
  lineBreak indent (indent + indentStep) false
  let _ ← expect "\x7d"
  write "\x7d"

/-- A table constructor. -/
def table (r : Rules) (indent : Int) : Renderer Unit := call .table do
  let _ ← expect "\x7b"
  if ← sees "\x7d" then
    let _ ← next
    write "\x7b"
    write "\x7d"
  else
    write "\x7b"
    loop (fun _ => nextField r (indent + indentStep)) ()
    closeTable indent

/-! ## 3. Functions -/

/-- The word that closes a block, on a line of its own. -/
def closeBlock (indent : Int) (word : String) : Renderer Unit := call .closeBlock do
  lineBreak indent (indent + indentStep) false
  let _ ← expect word
  write word

/-- A comma behind names, after which there must be another one. -/
def parameterComma (names : List String) : Renderer (ForInStep (List String)) := do
  if ← sees "," then
    let _ ← next
    return .yield names
  else return .done names

/-- A parameter, and what stands behind it; an ellipsis is the last. -/
def nextParameter (names : List String) : Renderer (ForInStep (List String)) := do
  if (← current).any Parser.isEllipsis then
    let last ← next
    return .done (names ++ [last.text])
  else
    let name ← expectName
    parameterComma (names ++ [name])

/-- The parameters up to the closing bracket. -/
def parameterNames : Renderer (List String) := do
  if ← sees ")" then return [] else loop nextParameter []

/-- The parameters in brackets, behind the closing one. -/
def closeParameters (names : List String) : Renderer Unit := do
  let _ ← expect ")"
  write "("
  separated write names
  write ")"

/-- The parameters of a function. -/
def parameters : Renderer Unit := call .parameters do
  let _ ← expect "("
  let names ← parameterNames
  closeParameters names

/-- A function without its name. -/
def body (r : Rules) (indent : Int) : Renderer Unit := call .body do
  parameters
  r.block (indent + indentStep)
  closeBlock indent "end"

/-! ## 4. Operands -/

/-- What an access starts from. -/
def root (r : Rules) (indent : Int) : Renderer AccessKind := do
  match ← current with
  | none => fail .unexpectedSymbol
  | some t =>
    if t.isOperator "(" then
      let _ ← next
      write "("
      r.expression indent 0
      let _ ← expect ")"
      write ")"
      return .parenthesized
    else if t.kind == .name then
      let _ ← next
      write t.text
      return .assignable
    else fail .unexpectedSymbol

/-- The arguments of a call up to the closing bracket. -/
def arguments (r : Rules) (indent : Int) : Renderer Unit := do
  if ← sees ")" then return () else expressions r indent

/-- One step of an access: a string, member, index, table or argument list. -/
def suffix (r : Rules) (indent : Int) (kind : AccessKind) : Renderer (ForInStep AccessKind) := do
  match ← current with
  | none => return .done kind
  | some t =>
    if t.kind == .string then
      let _ ← next
      space
      write t.text
      return .yield .call
    else if t.isOperator "." || t.isOperator ":" then
      let _ ← next
      let name ← expectName
      write t.text
      write name
      return .yield .assignable
    else if t.isOperator "[" then
      let _ ← next
      let apart ← openIndex
      r.expression indent 0
      let _ ← expect "]"
      spaceWhere apart
      write "]"
      return .yield .assignable
    else if t.isOperator "\x7b" then
      table r indent
      return .yield .call
    else if t.isOperator "(" then
      let _ ← next
      write "("
      arguments r indent
      let _ ← expect ")"
      write ")"
      return .yield .call
    else return .done kind

/-- A name or group with its suffixes; the answer tells how it ends. -/
def access (r : Rules) (indent : Int) : Renderer AccessKind := call .access do
  let kind ← root r indent
  loop (suffix r indent) kind

/-- An operand without unary operator. -/
def operand (r : Rules) (indent : Int) : Renderer Unit := call .operand do
  match ← current with
  | none => refuse .noToken
  | some t =>
    if Parser.isLiteral t then
      let _ ← next
      write t.text
    else if t.isOperator "\x7b" then table r indent
    else if t.isKeyword "function" then
      let _ ← next
      write "function"
      body r indent
    else
      let _ ← access r indent
      return ()

/-- A unary operator keeps apart from its argument after a word, and where two minus signs
would begin a comment. -/
def standsApart (operator : String) (after : Option Token) : Bool :=
  operator == "not" || (operator == "-" && after.any (·.startsWith '-'))

/-- An operand; that of a unary operator is an expression under its own limit. -/
def firstOperand (r : Rules) (indent : Int) : Renderer Unit := do
  match ← current with
  | none => fail .expectedExpression
  | some t =>
    if Parser.isUnary t then
      let _ ← next
      write t.text
      spaceWhere (standsApart t.text (← current))
      r.expression indent Powers.unary
    else operand r indent

/-- An expression under a limit. -/
def expression (r : Rules) (indent limit : Int) : Renderer Unit := call .expression do
  showingGroup do
    firstOperand r indent
    loop (fun _ => operation r indent limit) ()

/-! ## 5. Simple statements -/

/-- A jump out of the loop. -/
def breakLoop : Renderer Bool := do
  let _ ← next
  write "break"
  return false

/-- A jump to a label. -/
def goto : Renderer Bool := do
  let _ ← next
  let name ← expectName
  write "goto"
  space
  write name
  return false

/-- A label. -/
def label : Renderer Bool := do
  let _ ← next
  let name ← expectName
  let _ ← expect "::"
  write "::"
  write name
  write "::"
  return false

/-- A lone semicolon. -/
def empty : Renderer Bool := do
  let _ ← next
  write ";"
  return false

/-- A return, with values unless the block ends or a semicolon or label follows. -/
def returnValues (r : Rules) (indent : Int) : Renderer Bool := do
  let _ ← next
  write "return"
  if (← current).all Parser.endsResult then return false
  else
    space
    expressions r indent
    return false

/-! ## 6. Blocks and loops -/

/-- A block of its own. -/
def doBlock (r : Rules) (indent : Int) : Renderer Bool := do
  let _ ← next
  write "do"
  r.block (indent + indentStep)
  closeBlock indent "end"
  return false

/-- What is done in a loop. -/
def loopBody (r : Rules) (indent : Int) : Renderer Bool := do
  let _ ← expect "do"
  space
  write "do"
  r.block (indent + indentStep)
  closeBlock indent "end"
  return false

/-- A loop with its condition first. -/
def whileLoop (r : Rules) (indent : Int) : Renderer Bool := do
  let _ ← next
  write "while"
  space
  r.expression indent 0
  loopBody r indent

/-- A loop with its condition last. -/
def repeatLoop (r : Rules) (indent : Int) : Renderer Bool := do
  let _ ← next
  write "repeat"
  r.block (indent + indentStep)
  closeBlock indent "until"
  space
  r.expression indent 0
  return false

/-- A condition and what is done under it. -/
def branch (r : Rules) (indent : Int) : Renderer Unit := do
  space
  r.expression indent 0
  let _ ← expect "then"
  space
  write "then"
  r.block (indent + indentStep)

/-- A further condition on a line of its own. -/
def nextBranch (r : Rules) (indent : Int) : Renderer (ForInStep Unit) := do
  if ← sees "elseif" then
    closeBlock indent "elseif"
    branch r indent
    return .yield ()
  else return .done ()

/-- What is done if no condition holds. -/
def otherwise (r : Rules) (indent : Int) : Renderer Unit :=
  ifSees "else" do
    closeBlock indent "else"
    r.block (indent + indentStep)

/-- Conditions tried in order, and what is done if none holds. -/
def conditional (r : Rules) (indent : Int) : Renderer Bool := do
  let _ ← next
  write "if"
  branch r indent
  loop (fun _ => nextBranch r indent) ()
  otherwise r indent
  closeBlock indent "end"
  return false

/-- A comma and a name, which joins those before it. -/
def nextName (names : List String) : Renderer (ForInStep (List String)) := do
  if ← sees "," then
    let _ ← next
    let name ← expectName
    return .yield (names ++ [name])
  else return .done names

/-- The step of a counting loop. -/
def step (r : Rules) (indent : Int) : Renderer Unit :=
  ifSees "," do
    let _ ← next
    write ","
    space
    r.expression indent 0

/-- A loop over numbers, from behind its name. -/
def countingLoop (r : Rules) (indent : Int) (name : String) : Renderer Bool := do
  let _ ← next
  write "for"
  space
  write name
  space
  write "="
  space
  r.expression indent 0
  let _ ← expect ","
  write ","
  space
  r.expression indent 0
  step r indent
  loopBody r indent

/-- A loop over what an iterator yields, from behind its first name. -/
def iteration (r : Rules) (indent : Int) (name : String) : Renderer Bool := do
  let names ← loop nextName [name]
  let _ ← expect "in"
  write "for"
  space
  separated write names
  space
  write "in"
  space
  expressions r indent
  loopBody r indent

/-- A loop over numbers or over what an iterator yields; the token after the first name
tells them apart. -/
def forLoop (r : Rules) (indent : Int) : Renderer Bool := do
  let _ ← next
  let name ← expectName
  if ← sees "=" then countingLoop r indent name else iteration r indent name

/-! ## 7. Declarations -/

/-- A dot and a name, which join the path before them. -/
def nextPart (path : List String) : Renderer (ForInStep (List String)) := do
  if ← sees "." then
    let _ ← next
    let part ← expectName
    return .yield (path ++ [".", part])
  else return .done path

/-- The name of a method behind the path to it. -/
def methodName (path : List String) : Renderer (List String) := do
  if ← sees ":" then
    let _ ← next
    let name ← expectName
    return path ++ [":", name]
  else return path

/-- A function under a name, which may be a path and end in a method. -/
def function (r : Rules) (indent : Int) : Renderer Bool := do
  let _ ← next
  let name ← expectName
  let path ← loop nextPart [name]
  let path ← methodName path
  write "function"
  space
  writeAll path
  body r indent
  return true

/-- A local name and the word that it is marked with. -/
structure Marked where
  name : String
  mark : Option String

namespace Marked

/-- The name with its mark. -/
def text (n : Marked) : String :=
  match n.mark with
  | none => n.name
  | some word => n.name ++ " <" ++ word ++ ">"

/-- Puts the name and its mark down. -/
def put (n : Marked) : Renderer Unit :=
  match n.mark with
  | none => write n.name
  | some word => do
    write n.name
    space
    write "<"
    write word
    write ">"

end Marked

/-- A local name with its mark. -/
def localName : Renderer Marked := call .localName do
  let name ← expectName
  if ← sees "<" then
    let _ ← next
    let word ← expectName
    let _ ← expect ">"
    return ⟨name, some word⟩
  else return ⟨name, none⟩

/-- A comma and a local name, which joins those before it. -/
def nextLocalName (names : List Marked) : Renderer (ForInStep (List Marked)) := do
  if ← sees "," then
    let _ ← next
    let name ← localName
    return .yield (names ++ [name])
  else return .done names

/-- A local function. -/
def localFunction (r : Rules) (indent : Int) : Renderer Bool := do
  let _ ← next
  let name ← expectName
  write "local"
  space
  write "function"
  space
  write name
  body r indent
  return true

/-- The values of a declaration. -/
def values (r : Rules) (indent : Int) : Renderer Unit :=
  ifSees "=" do
    let _ ← next
    space
    write "="
    space
    expressions r indent

/-- A local function or local names, with values if any are given. -/
def localNames (r : Rules) (indent : Int) : Renderer Bool := do
  let _ ← next
  if ← sees "function" then localFunction r indent
  else
    let first ← localName
    let names ← loop nextLocalName [first]
    write "local"
    space
    separated Marked.put names
    values r indent
    return false

/-! ## 8. Assignments and calls -/

/-- The first token of a target, and how the target ends. -/
structure Target where
  start : Option Token
  kind : AccessKind

/-- An access with its first token. -/
def target (r : Rules) (indent : Int) : Renderer Target := do
  let start ← current
  let kind ← access r indent
  return ⟨start, kind⟩

/-- The target before must be assignable; then a comma and another target may follow. -/
def nextTarget (r : Rules) (indent : Int) (before : Target) : Renderer (ForInStep Target) := do
  if before.kind = .assignable then
    if ← sees "," then
      let _ ← next
      write ","
      space
      let after ← target r indent
      return .yield after
    else return .done before
  else failNear .malformed before.start

/-- An assignment, or a call. -/
def assignmentOrCall (r : Rules) (indent : Int) : Renderer Bool := call .assignmentOrCall do
  let first ← target r indent
  if (← sees ",") || (← sees "=") then
    let _ ← loop (nextTarget r indent) first
    let _ ← expect "="
    space
    write "="
    space
    expressions r indent
    return false
  else if first.kind = .call then return false
  else failNear .malformed first.start

/-! ## 9. Statements and blocks -/

/-- The statement of a form; the answer tells whether it declares a function. -/
def statementOf (r : Rules) (indent : Int) (form : StatementForm) : Renderer Bool :=
  call (.statementOf form) <| match form with
    | .breakLoop => breakLoop
    | .goto => goto
    | .label => label
    | .empty => empty
    | .doBlock => doBlock r indent
    | .whileLoop => whileLoop r indent
    | .repeatLoop => repeatLoop r indent
    | .conditional => conditional r indent
    | .forLoop => forLoop r indent
    | .function => function r indent
    | .localNames => localNames r indent
    | .result => returnValues r indent

/-- A statement; the answer tells whether it declares a function. -/
def statement (r : Rules) (indent : Int) : Renderer Bool := call .statement do
  match ← current with
  | none => refuse .noToken
  | some t =>
    match StatementForm.ofToken? t with
    | some form => statementOf r indent form
    | none =>
      if (Parser.binaryPowers? t).isSome then fail .unexpectedBinary else assignmentOrCall r indent

/-- A statement on a line of its own, unless the block ends here; a function leaves a
blank line behind it. -/
def nextStatement (r : Rules) (indent : Int) (blank : Bool) : Renderer (ForInStep Bool) := do
  match ← current with
  | none => return .done blank
  | some t =>
    if Parser.endsBlock t then return .done blank
    else
      lineBreak indent indent blank
      let blank ← statement r indent
      return .yield blank

/-- Statements up to the end of the block or of the input. -/
def block (r : Rules) (indent : Int) : Renderer Unit := call .block do
  let _ ← loop (nextStatement r indent) false
  return ()

/-- A block that must reach the end; the answer is the text of the page. -/
def format (r : Rules) : Renderer String := call .format do
  r.block 0
  match ← current with
  | some t => failNear (.expected "<eof>") (some t)
  | none =>
    flush 0
    return Session.endLine (← ask (·.page.text))

/-! ## 10. Requests -/

namespace Rules

/-- The methods for programs that nest less deep than the given number; blocks may be
refused. -/
def ofDepth (blocks : Bool) : Nat → Rules
  | 0 => ⟨fun _ _ => refuse .tooDeep, fun _ => refuse .tooDeep⟩
  | depth + 1 =>
    let inner := ofDepth blocks depth
    ⟨Renderer.expression inner,
      fun indent => if blocks then Renderer.block inner indent else refuse .blockNotRendered⟩

/-- The methods for what is ahead. -/
def forSession (s : Session) : Rules := ofDepth s.style.blocks (s.ahead.length + 1)

end Rules

/-- The answer without what was rendered. -/
def silently (w : Renderer Unit) : Renderer Reply := do
  w
  return .nothing

/-- The answer tells whether a function was declared. -/
def declaring (w : Renderer Bool) : Renderer Reply := do
  return if ← w then .flag true else .nothing

/-- The answer to a request. -/
def answerWith (r : Rules) : Request → Renderer Reply
  | .current => do return .ofToken? (← current)
  | .peek offset => do return .ofToken? (← ask (·.peek offset))
  | .check text offset => do return .flag (← check text offset)
  | .next => do return .token (← next)
  | .expect text => do return .token (← expect text)
  | .expectName => do return .text (← expectName)
  | .complain message => do
    return .fault (← ask fun s => s.complaint (.other message) s.current)
  | .closeBlock indent word => silently (closeBlock indent word)
  | .expression indent limit => silently (r.expression indent limit)
  | .expressions indent => silently (expressions r indent)
  | .operand indent => silently (operand r indent)
  | .access indent => do return .text (← access r indent).label
  | .openIndex => do return .text (if ← openIndex then " ]" else "]")
  | .parameters => silently parameters
  | .body indent => silently (body r indent)
  | .table indent => silently (table r indent)
  | .field indent => silently (field r indent)
  | .block indent => silently (r.block indent)
  | .statement indent => declaring (statement r indent)
  | .statementOf form indent => declaring (statementOf r indent form)
  | .assignmentOrCall indent => declaring (assignmentOrCall r indent)
  | .localName => do return .text (← localName).text
  | .format => do return .text (← format r)

/-- The answer to a request, from wherever it is made. -/
def answer (request : Request) : Renderer Reply := do
  answerWith (← ask Rules.forSession) request

end LuaLayout.Renderer
