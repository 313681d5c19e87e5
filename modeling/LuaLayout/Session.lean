/-
LuaLayout.Session — walking through tokens step by step.

A session knows the tokens it was started on, the leaves still ahead, and the
page. It answers requests: to look ahead, to take a leaf, or to read a part of
the grammar and lay it out. Formatting a program is the request for a block
that must reach the end. A request that fails leaves no session to go on with.
-/
import LuaLayout.Layout
import LuaLayout.Parser.Statement

namespace LuaLayout

/-! ## 1. Sessions -/

/-- What a session renders. -/
structure Style where
  /-- Function bodies and other blocks are rendered, not refused. -/
  blocks : Bool
  /-- Every expression is put between marks. -/
  groups : Bool
  deriving DecidableEq, Repr

namespace Style

/-- Programs as they are. -/
def program : Style := ⟨true, false⟩

/-- Programs with marks around their expressions. -/
def grouped : Style := ⟨true, true⟩

/-- Expressions without function bodies. -/
def expressions : Style := ⟨false, false⟩

end Style

/-- Tokens on their way to a page. -/
structure Session where
  style : Style
  tokens : List Token
  ahead : List Leaf
  page : Page
  deriving DecidableEq, Repr

namespace Session

/-- A session before the first token; comments before it wait already. -/
def start (style : Style) (tokens : List Token) : Session :=
  let (comments, leaves) := Leaf.ofTokens tokens
  ⟨style, tokens, leaves, Page.empty.queueAll (comments.map (·.text))⟩

/-- The number of tokens passed, comments included. -/
def position (s : Session) : Nat := s.tokens.length - (s.ahead.flatMap Leaf.tokens).length

/-- The next token. -/
def current (s : Session) : Option Token := Parser.tokenAt 0 s.ahead

/-- The token a number of leaves ahead; there is none behind. -/
def peek (s : Session) : Int → Option Token
  | .ofNat offset => Parser.tokenAt offset s.ahead
  | .negSucc _ => none

/-- The token a number of leaves ahead has the given text. -/
def check (s : Session) (text : String) (offset : Int) : Bool :=
  (s.peek offset).any (·.text == text)

/-- The position of the last token, where complaints about the end are placed. -/
def lastPosition (s : Session) : Position := (s.tokens.getLast?.map (·.pos)).getD Position.start

/-- The fault for a complaint near a token or the end of the input. -/
def complaint (s : Session) (what : Complaint) : Option Token → Fault
  | some t => .grammar what (some t.text) t.pos
  | none => .grammar what none s.lastPosition

/-- The fault for a failure of a parser. -/
def faultOf (s : Session) : Failure → Fault
  | .complaint what near => s.complaint what near
  | .refused cause => .refused cause

/-- The rules for what is ahead. -/
def rules (s : Session) : Rules := Rules.forLeaves s.style.blocks s.ahead

/-- Reads with a parser and lays out what was read. -/
def render {α : Type} (s : Session) (p : Parser α) (items : α → List Item) :
    Except Fault (α × Session) :=
  match p.run s.ahead with
  | .ok (a, ahead) => .ok (a, { s with ahead := ahead, page := s.page.layAll (items a) })
  | .error failure => .error (s.faultOf failure)

/-- Reads with a parser and writes nothing. -/
def take (s : Session) (p : Parser Leaf) : Except Fault (Leaf × Session) :=
  s.render p fun leaf => [leaf.omitted]

/-! ## 2. Formatting -/

/-- A text with a line end, unless it is empty. -/
def endLine (text : String) : String := if text.isEmpty then text else text ++ "\n"

/-- The page with a block from the next leaf to the last one. -/
def format (s : Session) : Except Fault (String × Session) := do
  let (_, s) ← s.render s.rules.block (·.layout s.style.groups 0)
  match s.current with
  | some t => throw (s.complaint (.expected "<eof>") (some t))
  | none =>
    let s := { s with page := s.page.flush 0 }
    return (endLine s.page.text, s)

end Session

/-- The text of a program given by its tokens. -/
def formatTokens (style : Style) (tokens : List Token) : Except Fault String := do
  return (← (Session.start style tokens).format).1

/-! ## 3. Requests -/

/-- What a session can be asked. -/
inductive Request
  | current
  | peek (offset : Int)
  | check (text : String) (offset : Int)
  | next
  | expect (text : String)
  | expectName
  | complain (message : String)
  | closeBlock (indent : Int) (word : String)
  | expression (indent limit : Int)
  | expressions (indent : Int)
  | operand (indent : Int)
  | access (indent : Int)
  | openIndex
  | parameters
  | body (indent : Int)
  | table (indent : Int)
  | field (indent : Int)
  | block (indent : Int)
  | statement (indent : Int)
  | statementOf (form : StatementForm) (indent : Int)
  | assignmentOrCall (indent : Int)
  | localName
  | format
  deriving DecidableEq, Repr

/-- What a session answers. -/
inductive Reply
  | nothing
  | token (t : Token)
  | text (text : String)
  | flag (value : Bool)
  | fault (fault : Fault)
  deriving DecidableEq, Repr

namespace Reply

/-- A token, if there is one. -/
def ofToken? : Option Token → Reply
  | some t => token t
  | none => nothing

end Reply

namespace LocalName

/-- The name with its mark. -/
def text (n : LocalName) : String :=
  match n.mark with
  | none => n.name.token.text
  | some m => n.name.token.text ++ " <" ++ m.word.token.text ++ ">"

/-- The leaves, left out. -/
def omitted (n : LocalName) : List Item :=
  match n.mark with
  | none => [n.name.omitted]
  | some m => [n.name.omitted, m.opening.omitted, m.word.omitted, m.closing.omitted]

end LocalName

namespace Session

/-- Renders a part that is not answered. -/
def renderSilently {α : Type} (s : Session) (p : Parser α) (items : α → List Item) :
    Except Fault (Reply × Session) := do
  return (.nothing, (← s.render p items).2)

/-- Renders a statement and tells whether it declares a function. -/
def renderStatement (s : Session) (p : Parser Stat) (indent : Int) :
    Except Fault (Reply × Session) := do
  let (stat, s) ← s.render p (·.layout s.style.groups indent)
  return (if stat.declaresFunction then .flag true else .nothing, s)

/-- The bracket that opens an index, apart from a long string; the answer is the
one that closes it. -/
def openIndex (s : Session) : Reply × Session :=
  let apart := s.current.any fun t => t.kind == .string && t.startsWith '['
  (.text (if apart then " ]" else "]"),
    { s with page := s.page.layAll (.word "[" [] :: spaceIf apart) })

/-- The answer to a request and the session after it. -/
def perform (s : Session) : Request → Except Fault (Reply × Session)
  | .current => return (.ofToken? s.current, s)
  | .peek offset => return (.ofToken? (s.peek offset), s)
  | .check text offset => return (.flag (s.check text offset), s)
  | .next => do
    let (leaf, s) ← s.take Parser.next
    return (.token leaf.token, s)
  | .expect text => do
    let (leaf, s) ← s.take (Parser.expect text)
    return (.token leaf.token, s)
  | .expectName => do
    let (leaf, s) ← s.take Parser.expectName
    return (.text leaf.token.text, s)
  | .complain message => return (.fault (s.complaint (.other message) s.current), s)
  | .closeBlock indent word =>
    s.renderSilently (Parser.expect word) (LuaLayout.closeBlock indent word)
  | .expression indent limit =>
    s.renderSilently (s.rules.expression limit) (·.layout s.style.groups indent)
  | .expressions indent =>
    s.renderSilently (Parser.expressions s.rules) (·.layout s.style.groups indent)
  | .operand indent =>
    s.renderSilently (Parser.simple s.rules) (·.layout s.style.groups indent)
  | .access indent => do
    let (path, s) ← s.render (Parser.access s.rules) (·.layout s.style.groups indent)
    return (.text path.kind.label, s)
  | .openIndex => return s.openIndex
  | .parameters => s.renderSilently Parser.parameters (·.layout)
  | .body indent => s.renderSilently (Parser.body s.rules) (·.layout s.style.groups indent)
  | .table indent => s.renderSilently (Parser.table s.rules) (·.layout s.style.groups indent)
  | .field indent => s.renderSilently (Parser.field s.rules) (·.layout s.style.groups indent)
  | .block indent => s.renderSilently s.rules.block (·.layout s.style.groups indent)
  | .statement indent => s.renderStatement (Parser.statement s.rules) indent
  | .statementOf form indent => s.renderStatement (Parser.statementOf s.rules form) indent
  | .assignmentOrCall indent => s.renderStatement (Parser.assignmentOrCall s.rules) indent
  | .localName => do
    let (n, s) ← s.render Parser.localName (·.omitted)
    return (.text n.text, s)
  | .format => do
    let (text, s) ← s.format
    return (.text text, s)

end Session

end LuaLayout
