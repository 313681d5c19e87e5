/-
LuaLayout.Proofs.Tree.Fits — trees that can be read back.

A tree fits when its leaves are what the grammar asks for at each place, and
when every part stops where it has to: the token that comes after a part must
not be one that the part would have gone on with. So each condition takes the
token after the part, and an expression also the limit that it is read under.
The conditions speak of kinds and texts only, never of positions or comments.

A leaf that only has to carry a text is asked for the text alone, and a leaf
that decides what is read next is asked for its kind as well.
-/
import LuaLayout.Parser.Statement
import LuaLayout.Proofs.Tree.Leaves

namespace LuaLayout

/-! ## 1. Tests on the token after a part -/

namespace Token

/-- The token goes on with an access. -/
def startsSuffix (t : Token) : Bool :=
  t.kind == .string || t.isOperator "." || t.isOperator ":" || t.isOperator "[" ||
    t.isOperator "\x7b" || t.isOperator "("

end Token

/-- The token has none of the texts. -/
def NoneOf (texts : List String) (next : Option Token) : Prop :=
  ∀ t ∈ next, t.text ∉ texts

/-- No operator that goes on with an expression under the limit. -/
def EndsExpr (limit : Int) (next : Option Token) : Prop :=
  next.bind (Parser.continuing? limit) = none

/-- Nothing that goes on with an access. -/
def EndsAccess (next : Option Token) : Prop :=
  ∀ t ∈ next, t.startsSuffix = false

/-! ## 2. Openings of statements -/

namespace StatementForm

/-- The text that announces a form. -/
def opening : StatementForm → String
  | breakLoop => "break"
  | goto => "goto"
  | label => "::"
  | empty => ";"
  | doBlock => "do"
  | whileLoop => "while"
  | repeatLoop => "repeat"
  | conditional => "if"
  | forLoop => "for"
  | function => "function"
  | localNames => "local"
  | result => "return"

theorem eq_opening {text : String} {form : StatementForm} (h : ofOpening? text = some form) :
    text = form.opening := by
  have hall : ∀ p ∈ table, p.1 = p.2.opening := by decide
  obtain ⟨before, after, heq, -⟩ := List.lookup_eq_some_iff.1 h
  exact hall (text, form) (by rw [heq]; simp)

end StatementForm

/-! ## 3. Parts without expressions -/

namespace Leaf

/-- The leaf has the text. -/
def Says (l : Leaf) (text : String) : Prop := l.token.text = text

/-- The leaf is a name. -/
def IsName (l : Leaf) : Prop := l.token.kind = .name

/-- The leaf is an operator with the text. -/
def IsSymbol (l : Leaf) (text : String) : Prop := l.token.isOperator text = true

/-- The leaf opens a statement of the form. -/
def Opens (l : Leaf) (form : StatementForm) : Prop :=
  StatementForm.ofToken? l.token = some form

theorem Opens.saying {l : Leaf} {form : StatementForm} (h : l.Opens form) : l.Says form.opening := by
  simp only [Opens, StatementForm.ofToken?] at h
  split at h
  · exact StatementForm.eq_opening h
  · cases h

/-- The leaf opens no statement that a word or symbol announces. -/
def OpensNone (l : Leaf) : Prop :=
  StatementForm.ofToken? l.token = none ∧ Parser.binaryPowers? l.token = none

/-- Names, each after the given separator. -/
def NamesFit (separator : String) (more : List (Leaf × Leaf)) : Prop :=
  ∀ p ∈ more, p.1.Says separator ∧ p.2.IsName

end Leaf

namespace Parameters

/-- Names after commas, the last of which may be an ellipsis. -/
def MoreFit : List (Leaf × Leaf) → Prop
  | [] => True
  | [(comma, last)] =>
    comma.Says "," ∧ (last.IsName ∨ Parser.isEllipsis last.token = true)
  | (comma, name) :: rest => comma.Says "," ∧ name.IsName ∧ MoreFit rest

/-- The parameters of a function. -/
def Fits : Parameters → Prop
  | none opening closing => opening.Says "(" ∧ closing.Says ")"
  | some opening first more closing =>
    opening.Says "(" ∧ ¬ first.Says ")" ∧ closing.Says ")" ∧
      (Parser.isEllipsis first.token = true ∧ more = [] ∨ first.IsName ∧ MoreFit more)

end Parameters

/-- A mark between angle brackets. -/
def Mark.Fits (m : Mark) : Prop := m.opening.Says "<" ∧ m.word.IsName ∧ m.closing.Says ">"

namespace LocalName

/-- A local name; without a mark, no mark follows. -/
def Fits (next : Option Token) (n : LocalName) : Prop :=
  n.name.IsName ∧
    match n.mark with
    | none => NoneOf ["<"] next
    | some m => m.Fits

/-- Local names after commas. -/
def MoreFit (next : Option Token) : List (Leaf × LocalName) → Prop
  | [] => NoneOf [","] next
  | (comma, n) :: rest =>
    comma.Says "," ∧ n.Fits (Leaf.front (Leaf.ofPairs leaves rest) next) ∧ MoreFit next rest

end LocalName

/-! ## 4. Expressions and statements -/

mutual

/-- An expression under a limit. -/
def Expr.Fits (limit : Int) (next : Option Token) : Expr → Prop
  | .mk operand operations =>
    operand.Fits (Leaf.front (operationsLeaves operations) next) ∧
      OperationsFit limit next operations

/-- Operators that go on under a limit; a right operand is read under the right
power of its operator. -/
def OperationsFit (limit : Int) (next : Option Token) : List (Leaf × Expr) → Prop
  | [] => EndsExpr limit next
  | (operator, right) :: rest =>
    (∃ powers, Parser.continuing? limit operator.token = some powers ∧
      right.Fits powers.right (Leaf.front (operationsLeaves rest) next)) ∧
    OperationsFit limit next rest

/-- An operand. -/
def Operand.Fits (next : Option Token) : Operand → Prop
  | .unary operator argument =>
    Parser.isUnary operator.token = true ∧ argument.Fits Powers.unary next
  | .literal value => Parser.isLiteral value.token = true
  | .table fields => fields.head.IsSymbol "\x7b" ∧ fields.Fits
  | .function word body => word.token.isKeyword "function" = true ∧ body.Fits
  | .access path => path.Fits next

/-- An access. -/
def Access.Fits (next : Option Token) : Access → Prop
  | .mk root suffixes => root.Fits ∧ SuffixesFit next suffixes

/-- The start of an access. -/
def Root.Fits : Root → Prop
  | .name name => name.IsName
  | .group opening inner closing =>
    opening.IsSymbol "(" ∧ inner.Fits 0 (some closing.token) ∧ closing.Says ")"

/-- Suffixes up to where the access ends. -/
def SuffixesFit (next : Option Token) : List Suffix → Prop
  | [] => EndsAccess next
  | s :: rest => s.Fits ∧ SuffixesFit next rest

/-- One step of an access. -/
def Suffix.Fits : Suffix → Prop
  | .text string => string.token.kind = .string
  | .member separator name =>
    (separator.IsSymbol "." ∨ separator.IsSymbol ":") ∧ name.IsName
  | .index opening key closing =>
    opening.IsSymbol "[" ∧ key.Fits 0 (some closing.token) ∧ closing.Says "]"
  | .table fields => fields.head.IsSymbol "\x7b" ∧ fields.Fits
  | .call opening none closing => opening.IsSymbol "(" ∧ closing.Says ")"
  | .call opening (some arguments) closing =>
    opening.IsSymbol "(" ∧ NoneOf [")"] (Leaf.front arguments.leaves none) ∧
      arguments.Fits (some closing.token) ∧ closing.Says ")"

/-- Expressions with commas between them. -/
def Exprs.Fits (next : Option Token) : Exprs → Prop
  | .mk first more => first.Fits 0 (Leaf.front (commaExprsLeaves more) next) ∧
    CommaExprsFit next more

/-- Expressions after commas. -/
def CommaExprsFit (next : Option Token) : List (Leaf × Expr) → Prop
  | [] => NoneOf [","] next
  | (comma, e) :: rest =>
    comma.Says "," ∧ e.Fits 0 (Leaf.front (commaExprsLeaves rest) next) ∧
      CommaExprsFit next rest

/-- A table constructor. -/
def Table.Fits : Table → Prop
  | .empty opening closing => opening.Says "\x7b" ∧ closing.Says "\x7d"
  | .fields opening first more trailing closing =>
    opening.Says "\x7b" ∧ NoneOf ["\x7d"] (Leaf.front first.leaves none) ∧
      first.Fits (Leaf.front (fieldsLeaves more ++ trailing.toList) (some closing.token)) ∧
      FieldsFit (Leaf.front trailing.toList (some closing.token)) more ∧
      (∀ t ∈ trailing, t.Says "," ∨ t.Says ";") ∧ closing.Says "\x7d"

/-- Further fields. -/
def FieldsFit (next : Option Token) : List (Leaf × Field) → Prop
  | [] => True
  | (separator, f) :: rest =>
    (separator.Says "," ∨ separator.Says ";") ∧
      NoneOf ["\x7d"] (Leaf.front f.leaves none) ∧
      f.Fits (Leaf.front (fieldsLeaves rest) next) ∧ FieldsFit next rest

/-- A field of a table. A positional one must not look like a named one. -/
def Field.Fits (next : Option Token) : Field → Prop
  | .keyed opening key closing equals value =>
    opening.IsSymbol "[" ∧ key.Fits 0 (some closing.token) ∧ closing.Says "]" ∧
      equals.Says "=" ∧ value.Fits 0 next
  | .named name equals value => name.IsName ∧ equals.Says "=" ∧ value.Fits 0 next
  | .positional value =>
    value.Fits 0 next ∧
      (value.head.IsName → NoneOf ["="] (Leaf.front value.leaves.tail next))

/-- A function without its name. -/
def Body.Fits : Body → Prop
  | .mk parameters block closing =>
    parameters.Fits ∧ block.Fits (some closing.token) ∧ closing.Says "end"

/-- A block. -/
def Block.Fits (next : Option Token) : Block → Prop
  | .mk statements => StatementsFit next statements

/-- Statements up to the end of a block or of the input. -/
def StatementsFit (next : Option Token) : List Stat → Prop
  | [] => next.all Parser.endsBlock = true
  | s :: rest =>
    (Leaf.front s.leaves none).all Parser.endsBlock = false ∧
      s.Fits (Leaf.front (statementsLeaves rest) next) ∧ StatementsFit next rest

/-- A statement. -/
def Stat.Fits (next : Option Token) : Stat → Prop
  | .breakLoop word => word.Opens .breakLoop
  | .goto word target => word.Opens .goto ∧ target.IsName
  | .label opening name closing => opening.Opens .label ∧ name.IsName ∧ closing.Says "::"
  | .empty semicolon => semicolon.Opens .empty
  | .doBlock word block closing =>
    word.Opens .doBlock ∧ block.Fits (some closing.token) ∧ closing.Says "end"
  | .whileLoop word condition opening block closing =>
    word.Opens .whileLoop ∧ condition.Fits 0 (some opening.token) ∧ opening.Says "do" ∧
      block.Fits (some closing.token) ∧ closing.Says "end"
  | .repeatLoop word block closing condition =>
    word.Opens .repeatLoop ∧ block.Fits (some closing.token) ∧ closing.Says "until" ∧
      condition.Fits 0 next
  | .conditional first more otherwise closing =>
    (∀ l ∈ first.leaves.head?, l.Opens .conditional) ∧
      first.Fits (Leaf.front (branchesLeaves more ++ otherwiseLeaves otherwise)
        (some closing.token)) ∧
      BranchesFit (Leaf.front (otherwiseLeaves otherwise) (some closing.token)) more ∧
      OtherwiseFits (some closing.token) otherwise ∧ closing.Says "end"
  | .countingLoop word name equals start comma stop step opening block closing =>
    word.Opens .forLoop ∧ name.IsName ∧ equals.Says "=" ∧ start.Fits 0 (some comma.token) ∧
      comma.Says "," ∧ stop.Fits 0 (Leaf.front (stepLeaves step) (some opening.token)) ∧
      StepFits (some opening.token) step ∧ opening.Says "do" ∧
      block.Fits (some closing.token) ∧ closing.Says "end"
  | .iteration word name more between values opening block closing =>
    word.Opens .forLoop ∧ name.IsName ∧ Leaf.NamesFit "," more ∧ between.Says "in" ∧
      values.Fits (some opening.token) ∧ opening.Says "do" ∧
      block.Fits (some closing.token) ∧ closing.Says "end"
  | .function word name path method body =>
    word.Opens .function ∧ name.IsName ∧ Leaf.NamesFit "." path ∧
      Leaf.NamesFit ":" method.toList ∧ body.Fits
  | .localFunction word function name body =>
    word.Opens .localNames ∧ function.Says "function" ∧ name.IsName ∧ body.Fits
  | .localNames word first more none =>
    word.Opens .localNames ∧ ¬ first.name.Says "function" ∧
      first.Fits (Leaf.front (Leaf.ofPairs LocalName.leaves more) next) ∧
      LocalName.MoreFit next more ∧ NoneOf ["="] next
  | .localNames word first more (some (equals, values)) =>
    word.Opens .localNames ∧ ¬ first.name.Says "function" ∧
      first.Fits (Leaf.front (Leaf.ofPairs LocalName.leaves more) (some equals.token)) ∧
      LocalName.MoreFit (some equals.token) more ∧ equals.Says "=" ∧ values.Fits next
  | .result word none => word.Opens .result ∧ next.all Parser.endsResult = true
  | .result word (some values) =>
    word.Opens .result ∧ (Leaf.front values.leaves none).all Parser.endsResult = false ∧
      values.Fits next
  | .assignment first more equals values =>
    first.head.OpensNone ∧
      first.Fits (Leaf.front (commaAccessesLeaves more) (some equals.token)) ∧
      first.kind = .assignable ∧ CommaAccessesFit (some equals.token) more ∧
      equals.Says "=" ∧ values.Fits next
  | .call callee =>
    callee.head.OpensNone ∧ callee.Fits next ∧ callee.kind = .call ∧ NoneOf [",", "="] next

/-- Further targets of an assignment. -/
def CommaAccessesFit (next : Option Token) : List (Leaf × Access) → Prop
  | [] => True
  | (comma, a) :: rest =>
    comma.Says "," ∧ a.Fits (Leaf.front (commaAccessesLeaves rest) next) ∧
      a.kind = .assignable ∧ CommaAccessesFit next rest

/-- A condition and its block. -/
def Branch.Fits (next : Option Token) : Branch → Prop
  | .mk _ condition opening block =>
    condition.Fits 0 (some opening.token) ∧ opening.Says "then" ∧ block.Fits next

/-- Further conditions. -/
def BranchesFit (next : Option Token) : List Branch → Prop
  | [] => True
  | b :: rest =>
    (∀ l ∈ b.leaves.head?, l.Says "elseif") ∧
      b.Fits (Leaf.front (branchesLeaves rest) next) ∧ BranchesFit next rest

/-- What is done if no condition holds. -/
def OtherwiseFits (next : Option Token) : Option (Leaf × Block) → Prop
  | none => True
  | some (word, block) => word.Says "else" ∧ block.Fits next

/-- The step of a counting loop. -/
def StepFits (next : Option Token) : Option (Leaf × Expr) → Prop
  | none => True
  | some (comma, step) => comma.Says "," ∧ step.Fits 0 next

end

end LuaLayout
