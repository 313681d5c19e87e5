/-
LuaLayout.Page — output under construction.

A page is what has been put down so far, piece by piece, and the comments that
wait for a place of their own: the next start of a line. Starting a line first
puts each waiting comment on a line by itself. Nothing breaks a page that is
still empty, so no output begins with a line end.
-/
import LuaLayout.Token

namespace LuaLayout

/-! ## 1. Pieces -/

/-- What a page is made of. -/
inductive Piece
  /-- A text of the program, put down as it is. -/
  | text (chars : String)
  /-- The space between two texts on a line. -/
  | space
  /-- A comment. -/
  | comment (chars : String)
  /-- A line end and the indentation of the next line; none where it is negative. -/
  | lineStart (indent : Int)
  /-- The extra line end that leaves a line blank. -/
  | blank
  deriving DecidableEq, Repr

namespace Piece

/-- The characters of a piece. -/
def chars : Piece → List Char
  | text t => t.toList
  | space => [' ']
  | comment t => t.toList
  | lineStart indent => '\n' :: List.replicate indent.toNat ' '
  | blank => ['\n']

end Piece

/-! ## 2. Pages -/

/-- The pieces put down, and the comments that wait for the next line. -/
structure Page where
  pieces : Array Piece
  waiting : List String
  deriving DecidableEq, Repr

namespace Page

/-- A page with nothing on it. -/
def empty : Page := ⟨#[], []⟩

/-- Nothing has been put down, not even an empty text. -/
def isEmpty (p : Page) : Bool := p.pieces.isEmpty

/-- The characters on the page. -/
def chars (p : Page) : List Char := p.pieces.toList.flatMap Piece.chars

/-- The text on the page. -/
def text (p : Page) : String := String.ofList p.chars

/-- Puts a piece down. -/
def put (p : Page) (piece : Piece) : Page := { p with pieces := p.pieces.push piece }

/-- Puts a piece down unless the page is empty. -/
def putAfter (p : Page) (piece : Piece) : Page := if p.isEmpty then p else p.put piece

/-- Lets a comment wait. -/
def queue (p : Page) (comment : String) : Page := { p with waiting := p.waiting ++ [comment] }

/-- A comment on a line of its own; the first line needs no start. -/
def putComment (indent : Int) (p : Page) (comment : String) : Page :=
  (p.putAfter (.lineStart indent)).put (.comment comment)

/-- Puts down every waiting comment, in order. -/
def flush (p : Page) (indent : Int) : Page :=
  p.waiting.foldl (putComment indent) { p with waiting := [] }

/-- Starts a line, after a blank one if asked to; waiting comments come first,
at an indentation of their own. -/
def startLine (p : Page) (indent commentIndent : Int) (blank : Bool) : Page :=
  let p := if blank then p.putAfter .blank else p
  (p.flush commentIndent).putAfter (.lineStart indent)

/-! What each operation does to the characters and to the waiting comments. -/

@[simp] theorem chars_empty : empty.chars = [] := rfl

@[simp] theorem chars_put (p : Page) (piece : Piece) :
    (p.put piece).chars = p.chars ++ piece.chars := by
  simp [chars, put]

@[simp] theorem isEmpty_put (p : Page) (piece : Piece) : (p.put piece).isEmpty = false := by
  simp [isEmpty, put]

@[simp] theorem waiting_put (p : Page) (piece : Piece) : (p.put piece).waiting = p.waiting := rfl

@[simp] theorem waiting_putAfter (p : Page) (piece : Piece) :
    (p.putAfter piece).waiting = p.waiting := by
  unfold putAfter
  split <;> rfl

@[simp] theorem waiting_putComment (indent : Int) (p : Page) (comment : String) :
    (putComment indent p comment).waiting = p.waiting := by
  simp [putComment]

@[simp] theorem waiting_flush (p : Page) (indent : Int) : (p.flush indent).waiting = [] := by
  suffices h : ∀ (comments : List String) (q : Page),
      (comments.foldl (putComment indent) q).waiting = q.waiting from h p.waiting _
  intro comments
  induction comments with
  | nil => intro q; rfl
  | cons c rest ih => intro q; simp [ih]

@[simp] theorem waiting_startLine (p : Page) (indent commentIndent : Int) (blank : Bool) :
    (p.startLine indent commentIndent blank).waiting = [] := by
  simp [startLine]

end Page

/-! ## 3. Items -/

/-- One step in laying out a program. -/
inductive Item
  /-- A text, and the comments that followed its token. -/
  | word (chars : String) (comments : List String)
  /-- A token that is left out, whose comments are not. -/
  | omitted (comments : List String)
  | space
  | line (indent commentIndent : Int) (blank : Bool)
  deriving DecidableEq, Repr

namespace Page

/-- Lets comments wait, in order. -/
def queueAll (p : Page) (comments : List String) : Page :=
  { p with waiting := p.waiting ++ comments }

/-- Carries out one step. -/
def lay (p : Page) : Item → Page
  | .word chars comments => (p.put (.text chars)).queueAll comments
  | .omitted comments => p.queueAll comments
  | .space => p.put .space
  | .line indent commentIndent blank => p.startLine indent commentIndent blank

/-- Carries out steps in order. -/
def layAll (p : Page) (items : List Item) : Page := items.foldl lay p

@[simp] theorem layAll_nil (p : Page) : p.layAll [] = p := rfl

theorem layAll_cons (p : Page) (item : Item) (items : List Item) :
    p.layAll (item :: items) = (p.lay item).layAll items := rfl

theorem layAll_append (p : Page) (items more : List Item) :
    p.layAll (items ++ more) = (p.layAll items).layAll more := List.foldl_append

end Page

end LuaLayout
