/-
LuaLayout.Classification — the final kind of a token.

Names turn out to be keywords, operator words or constants; the variants of
strings, comments and numbers become one kind each; three dots become a
constant. What a version does not accept is refused here: other operators, and
characters that no class takes.
-/
import LuaLayout.Fault
import LuaLayout.Vocabulary

namespace LuaLayout

/-- The kinds that lexical variants end up as. -/
def collapsedKinds : List (TokenKind × TokenKind) :=
  [(.doubleQuoted, .string), (.singleQuoted, .string), (.blockQuote, .string),
   (.lineComment, .comment), (.blockComment, .comment),
   (.hexNumber, .number), (.sciNumber, .number), (.sciHexNumber, .number)]

/-- The final kind of a name. -/
def nameKind (keywords : List String) (text : String) : TokenKind :=
  if keywords.contains text then .keyword
  else if Vocabulary.wordOperators.contains text then .operator
  else if Vocabulary.constants.contains text then .constant
  else .name

/-- The token with its final kind, under a set of keywords. -/
def classify (version : Version) (keywords : List String) (t : Token) : Except Fault Token :=
  match t.kind with
  | .operator =>
    if t.text == Vocabulary.ellipsis then .ok { t with kind := .constant }
    else if Vocabulary.acceptsOperator version t.text then .ok t
    else .error (.operator t.text t.pos)
  | .name => .ok { t with kind := nameKind keywords t.text }
  | .invalid => .error (.lexical .invalidCharacters t.pos)
  | kind => .ok { t with kind := (collapsedKinds.lookup kind).getD kind }

end LuaLayout
