/-
LuaLayout.Reduction — from raw tokens to those that the grammar reads.

Every token gets its final kind. A reduction that trims also drops white space,
and comments if asked to, and joins a minus to the number right after it where
the minus cannot be binary. A comment between the two keeps them apart; on the
other side comments are looked through.
-/
import LuaLayout.Classification

namespace LuaLayout

/-! ## 1. Trimming -/

/-- What a reduction drops. -/
inductive Trim
  | none
  | whitespace
  | comments
  deriving DecidableEq, Repr

namespace Trim

/-- Every choice, least first. -/
def all : List Trim := [none, whitespace, comments]

/-- The number that asks for a choice. -/
def level : Trim → Int
  | none => 0
  | whitespace => 1
  | comments => 2

/-- The choice that a number asks for: nothing at zero, comments from two on,
and white space at any other number. -/
def ofLevel (n : Int) : Trim :=
  if n = 0 then none else if 2 ≤ n then comments else whitespace

/-- The token survives the trimming. -/
def keeps (trim : Trim) (t : Token) : Bool :=
  match trim with
  | none => true
  | whitespace => t.kind != .whitespace
  | comments => t.kind != .whitespace && t.kind != .comment

end Trim

/-! ## 2. Folding -/

/-- A minus after this token is unary: nothing comes before it, or an operator
that closes no group, or a keyword other than the end of a block. -/
def foldsAfter : Option Token → Bool
  | none => true
  | some t =>
    match t.kind with
    | .operator => !Vocabulary.closingBrackets.contains t.text
    | .keyword => t.text != "end"
    | _ => false

/-- Tokens kept so far, the latest first, and how many numbers were joined to
their sign. -/
structure Kept where
  latest : List Token
  folded : Nat

namespace Kept

/-- Nothing kept. -/
def empty : Kept := ⟨[], 0⟩

/-- Keeps one more token, joining a number to the minus before it where that is
unary. -/
def push (k : Kept) (t : Token) : Kept :=
  match k.latest with
  | minus :: before =>
    if t.kind == .number && minus.isOperator "-" &&
        foldsAfter (before.find? (·.kind != .comment)) then
      ⟨{ t with text := "-" ++ t.text, pos := minus.pos } :: before, k.folded + 1⟩
    else ⟨t :: k.latest, k.folded⟩
  | [] => ⟨[t], k.folded⟩

end Kept

/-! ## 3. Reducing -/

/-- The outcome of a reduction: the tokens, and the number of folded signs. -/
structure Reduction where
  tokens : List Token
  folded : Nat
  deriving DecidableEq, Repr

namespace Reduction

/-- The texts of the tokens. -/
def texts (r : Reduction) : List String := r.tokens.map (·.text)

end Reduction

/-- Gives every token its final kind, then trims and folds. -/
def reduce (version : Version) (trim : Trim) (tokens : List Token) : Except Fault Reduction := do
  let classified ← tokens.mapM (classify version (Vocabulary.keywords version))
  match trim with
  | .none => return ⟨classified, 0⟩
  | _ =>
    let kept := (classified.filter trim.keeps).foldl Kept.push Kept.empty
    return ⟨kept.latest.reverse, kept.folded⟩

end LuaLayout
