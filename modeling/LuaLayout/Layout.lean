/-
LuaLayout.Layout — where everything of a tree goes on the page.

Each part of a tree becomes items in the order of its leaves: words, the spaces
between them, and line starts. A nested block or table stands one step deeper
than the line that opens it, its closing word back at the opening depth, and
comments before the closing word still at the inner depth. Words that the
grammar fixes are written as such; all other texts are those of the leaves.
-/
import LuaLayout.Page
import LuaLayout.Tree

namespace LuaLayout

/-- The columns that one level of nesting adds. -/
def indentStep : Int := 4

/-! ## 1. Words -/

namespace Leaf

/-- The texts of the comments after the token. -/
def remarks (l : Leaf) : List String := l.comments.map (·.text)

/-- The text of the token. -/
def word (l : Leaf) : Item := .word l.token.text l.remarks

/-- A fixed text in place of the token. -/
def wordAs (l : Leaf) (text : String) : Item := .word text l.remarks

/-- The token left out. -/
def omitted (l : Leaf) : Item := .omitted l.remarks

end Leaf

/-- A line start with comments at the same depth. -/
def newLine (indent : Int) : Item := .line indent indent false

/-- A line start before what closes a nested part: its comments stand deeper. -/
def closingLine (indent : Int) : Item := .line indent (indent + indentStep) false

/-- The word that closes a block, on a line of its own. -/
def closeBlock (indent : Int) (word : String) (closing : Leaf) : List Item :=
  [closingLine indent, closing.wordAs word]

/-- Names after commas. -/
def commaNames (more : List (Leaf × Leaf)) : List Item :=
  more.flatMap fun (comma, name) => [comma.wordAs ",", .space, name.word]

/-! ## 2. Parts without expressions -/

namespace Parameters

/-- The parameters between their brackets. -/
def layout : Parameters → List Item
  | none opening closing => [opening.wordAs "(", closing.wordAs ")"]
  | some opening first more closing =>
    opening.wordAs "(" :: first.word :: commaNames more ++ [closing.wordAs ")"]

end Parameters

namespace LocalName

/-- The mark of a local name, after a space. -/
def markLayout : Option Mark → List Item
  | none => []
  | some m => [.space, m.opening.wordAs "<", m.word.word, m.closing.wordAs ">"]

/-- A local name and its mark. -/
def layout (n : LocalName) : List Item := n.name.word :: markLayout n.mark

/-- Further local names after commas. -/
def moreLayout (more : List (Leaf × LocalName)) : List Item :=
  more.flatMap fun (comma, n) => comma.wordAs "," :: .space :: n.layout

end LocalName

/-! ## 3. Spaces that keep tokens apart -/

namespace Expr

/-- The expression begins with a long string, whose bracket would join one
before it to an opener of its own. -/
def startsWithLongString (e : Expr) : Bool :=
  e.head.token.kind == .string && e.head.token.startsWith '['

end Expr

/-- A space where a test holds. -/
def spaceIf (b : Bool) : List Item := if b then [.space] else []

/-- A unary operator and its argument need a space between them: after a word,
and between two minus signs, which would begin a comment. -/
def unarySpace (operator : String) (argument : Expr) : Bool :=
  operator == "not" || (operator == "-" && argument.head.token.startsWith '-')

/-! ## 4. Expressions and statements -/

/-- The items of an expression between marks that show where it begins and
ends, if groups are to be shown. -/
def showGroup (groups : Bool) (items : List Item) : List Item :=
  if groups then .word "<" [] :: items ++ [.word ">" []] else items

mutual

/-- An expression: operators stand between spaces. -/
def Expr.layout (groups : Bool) (indent : Int) : Expr → List Item
  | .mk operand operations =>
    showGroup groups (operand.layout groups indent ++ operationsLayout groups indent operations)

/-- Operators with their right operands. -/
def operationsLayout (groups : Bool) (indent : Int) : List (Leaf × Expr) → List Item
  | [] => []
  | (operator, right) :: rest =>
    .space :: operator.word :: .space :: right.layout groups indent ++
      operationsLayout groups indent rest

/-- An operand. -/
def Operand.layout (groups : Bool) (indent : Int) : Operand → List Item
  | .unary operator argument =>
    operator.word :: spaceIf (unarySpace operator.token.text argument) ++
      argument.layout groups indent
  | .literal value => [value.word]
  | .table fields => fields.layout groups indent
  | .function word body => word.wordAs "function" :: body.layout groups indent
  | .access path => path.layout groups indent

/-- An access: a root and its suffixes, without spaces between them. -/
def Access.layout (groups : Bool) (indent : Int) : Access → List Item
  | .mk root suffixes => root.layout groups indent ++ suffixesLayout groups indent suffixes

/-- What an access starts from. -/
def Root.layout (groups : Bool) (indent : Int) : Root → List Item
  | .name name => [name.word]
  | .group opening inner closing =>
    opening.wordAs "(" :: inner.layout groups indent ++ [closing.wordAs ")"]

/-- Suffixes in order. -/
def suffixesLayout (groups : Bool) (indent : Int) : List Suffix → List Item
  | [] => []
  | s :: rest => s.layout groups indent ++ suffixesLayout groups indent rest

/-- One step of an access: only a string stands apart. -/
def Suffix.layout (groups : Bool) (indent : Int) : Suffix → List Item
  | .text string => [.space, string.word]
  | .member separator name => [separator.word, name.word]
  | .index opening key closing =>
    opening.wordAs "[" :: spaceIf key.startsWithLongString ++ key.layout groups indent ++
      spaceIf key.startsWithLongString ++ [closing.wordAs "]"]
  | .table fields => fields.layout groups indent
  | .call opening none closing => [opening.wordAs "(", closing.wordAs ")"]
  | .call opening (some arguments) closing =>
    opening.wordAs "(" :: arguments.layout groups indent ++ [closing.wordAs ")"]

/-- Expressions with commas between them. -/
def Exprs.layout (groups : Bool) (indent : Int) : Exprs → List Item
  | .mk first more => first.layout groups indent ++ commaExprsLayout groups indent more

/-- Expressions after commas. -/
def commaExprsLayout (groups : Bool) (indent : Int) : List (Leaf × Expr) → List Item
  | [] => []
  | (comma, e) :: rest =>
    comma.wordAs "," :: .space :: e.layout groups indent ++ commaExprsLayout groups indent rest

/-- A table: each field on a line of its own, separated by commas. -/
def Table.layout (groups : Bool) (indent : Int) : Table → List Item
  | .empty opening closing => [opening.wordAs "\x7b", closing.wordAs "\x7d"]
  | .fields opening first more trailing closing =>
    opening.wordAs "\x7b" :: newLine (indent + indentStep) ::
      first.layout groups (indent + indentStep) ++
      commaFieldsLayout groups (indent + indentStep) more ++
      trailing.toList.map Leaf.omitted ++ [closingLine indent, closing.wordAs "\x7d"]

/-- Further fields, each after a comma. -/
def commaFieldsLayout (groups : Bool) (indent : Int) : List (Leaf × Field) → List Item
  | [] => []
  | (separator, f) :: rest =>
    separator.wordAs "," :: newLine indent :: f.layout groups indent ++
      commaFieldsLayout groups indent rest

/-- A field of a table. -/
def Field.layout (groups : Bool) (indent : Int) : Field → List Item
  | .keyed opening key closing equals value =>
    opening.wordAs "[" :: spaceIf key.startsWithLongString ++ key.layout groups indent ++
      spaceIf key.startsWithLongString ++
      closing.wordAs "]" :: .space :: equals.wordAs "=" :: .space :: value.layout groups indent
  | .named name equals value =>
    name.word :: .space :: equals.wordAs "=" :: .space :: value.layout groups indent
  | .positional value => value.layout groups indent

/-- A function without its name. -/
def Body.layout (groups : Bool) (indent : Int) : Body → List Item
  | .mk parameters block closing =>
    parameters.layout ++ block.layout groups (indent + indentStep) ++
      closeBlock indent "end" closing

/-- A block: each statement on a line of its own. -/
def Block.layout (groups : Bool) (indent : Int) : Block → List Item
  | .mk statements => statementsLayout groups indent false statements

/-- Statements in order, with a blank line after a function declaration. -/
def statementsLayout (groups : Bool) (indent : Int) (blank : Bool) : List Stat → List Item
  | [] => []
  | s :: rest =>
    .line indent indent blank :: s.layout groups indent ++
      statementsLayout groups indent s.declaresFunction rest

/-- A statement. -/
def Stat.layout (groups : Bool) (indent : Int) : Stat → List Item
  | .breakLoop word => [word.wordAs "break"]
  | .goto word target => [word.wordAs "goto", .space, target.word]
  | .label opening name closing => [opening.wordAs "::", name.word, closing.wordAs "::"]
  | .empty semicolon => [semicolon.wordAs ";"]
  | .doBlock word block closing =>
    word.wordAs "do" :: block.layout groups (indent + indentStep) ++
      closeBlock indent "end" closing
  | .whileLoop word condition opening block closing =>
    word.wordAs "while" :: .space :: condition.layout groups indent ++
      .space :: opening.wordAs "do" :: block.layout groups (indent + indentStep) ++
      closeBlock indent "end" closing
  | .repeatLoop word block closing condition =>
    word.wordAs "repeat" :: block.layout groups (indent + indentStep) ++
      closeBlock indent "until" closing ++ .space :: condition.layout groups indent
  | .conditional first more otherwise closing =>
    first.layout groups indent "if" ++ branchesLayout groups indent more ++
      otherwiseLayout groups indent otherwise ++ closeBlock indent "end" closing
  | .countingLoop word name equals start comma stop step opening block closing =>
    word.wordAs "for" :: .space :: name.word :: .space :: equals.wordAs "=" :: .space ::
      start.layout groups indent ++
      comma.wordAs "," :: .space :: stop.layout groups indent ++
      stepLayout groups indent step ++
      .space :: opening.wordAs "do" :: block.layout groups (indent + indentStep) ++
      closeBlock indent "end" closing
  | .iteration word name more between values opening block closing =>
    word.wordAs "for" :: .space :: name.word :: commaNames more ++
      .space :: between.wordAs "in" :: .space :: values.layout groups indent ++
      .space :: opening.wordAs "do" :: block.layout groups (indent + indentStep) ++
      closeBlock indent "end" closing
  | .function word name path method body =>
    word.wordAs "function" :: .space :: name.word ::
      path.flatMap (fun (dot, part) => [dot.wordAs ".", part.word]) ++
      method.toList.flatMap (fun (colon, part) => [colon.wordAs ":", part.word]) ++
      body.layout groups indent
  | .localFunction word function name body =>
    word.wordAs "local" :: .space :: function.wordAs "function" :: .space :: name.word ::
      body.layout groups indent
  | .localNames word first more none =>
    word.wordAs "local" :: .space :: first.layout ++ LocalName.moreLayout more
  | .localNames word first more (some (equals, values)) =>
    word.wordAs "local" :: .space :: first.layout ++ LocalName.moreLayout more ++
      .space :: equals.wordAs "=" :: .space :: values.layout groups indent
  | .result word none => [word.wordAs "return"]
  | .result word (some values) => word.wordAs "return" :: .space :: values.layout groups indent
  | .assignment first more equals values =>
    first.layout groups indent ++ commaAccessesLayout groups indent more ++
      .space :: equals.wordAs "=" :: .space :: values.layout groups indent
  | .call callee => callee.layout groups indent

/-- Further targets of an assignment, each after a comma. -/
def commaAccessesLayout (groups : Bool) (indent : Int) : List (Leaf × Access) → List Item
  | [] => []
  | (comma, a) :: rest =>
    comma.wordAs "," :: .space :: a.layout groups indent ++ commaAccessesLayout groups indent rest

/-- A condition and its block, opened by the given word. -/
def Branch.layout (groups : Bool) (indent : Int) (text : String) : Branch → List Item
  | .mk word condition opening block =>
    word.wordAs text :: .space :: condition.layout groups indent ++
      .space :: opening.wordAs "then" :: block.layout groups (indent + indentStep)

/-- Further conditions, each on a line of its own. -/
def branchesLayout (groups : Bool) (indent : Int) : List Branch → List Item
  | [] => []
  | b :: rest =>
    closingLine indent :: b.layout groups indent "elseif" ++ branchesLayout groups indent rest

/-- What is done if no condition holds. -/
def otherwiseLayout (groups : Bool) (indent : Int) : Option (Leaf × Block) → List Item
  | none => []
  | some (word, block) =>
    closeBlock indent "else" word ++ block.layout groups (indent + indentStep)

/-- The step of a counting loop, after a comma. -/
def stepLayout (groups : Bool) (indent : Int) : Option (Leaf × Expr) → List Item
  | none => []
  | some (comma, step) => comma.wordAs "," :: .space :: step.layout groups indent

end

end LuaLayout
