/-
LuaLayout.Proofs.Page.Written — the pieces that items put down.

`laid` follows items one by one with the comments that wait, and gives the pieces
in order. On a page that is not empty they are what laying the items out adds;
the comments left over come last, each on a line of its own. The layout of a
program begins with a line start, which an empty page swallows: the page of a
program is what is laid, less the first piece.
-/
import LuaLayout.Page

namespace LuaLayout

/-- The comment of a piece. -/
def Piece.note? : Piece → Option String
  | .comment t => some t
  | _ => none

namespace Page

/-! ## 1. Pieces in order -/

/-- Comments, each on a line of its own. -/
def notePieces (indent : Int) (notes : List String) : List Piece :=
  notes.flatMap fun note => [.lineStart indent, .comment note]

theorem filterMap_note_notePieces (indent : Int) (notes : List String) :
    (notePieces indent notes).filterMap Piece.note? = notes := by
  induction notes with
  | nil => rfl
  | cons note rest ih => exact congrArg (note :: ·) ih

/-- The line feed that leaves a line blank, if there is to be one. -/
def blankPiece (blank : Bool) : List Piece := if blank then [.blank] else []

/-- The pieces of items, with comments that wait before them. -/
def laid : List String → List Item → List Piece
  | notes, [] => notePieces 0 notes
  | notes, .word chars remarks :: rest => .text chars :: laid (notes ++ remarks) rest
  | notes, .omitted remarks :: rest => laid (notes ++ remarks) rest
  | notes, .space :: rest => .space :: laid notes rest
  | notes, .line indent noteIndent blank :: rest =>
    blankPiece blank ++ (notePieces noteIndent notes ++ .lineStart indent :: laid [] rest)

/-! ## 2. Pages that are not empty -/

/-- The pieces of a page, in order. -/
def list (p : Page) : List Piece := p.pieces.toList

/-- The comments put down on a page, in order. -/
def notes (p : Page) : List String := p.list.filterMap Piece.note?

theorem list_put (p : Page) (piece : Piece) : (p.put piece).list = p.list ++ [piece] := by
  simp [list, put]

theorem isEmpty_putAfter (p : Page) (piece : Piece) (h : p.isEmpty = false) :
    (p.putAfter piece).isEmpty = false := by
  simp [putAfter, h]

theorem list_putAfter (p : Page) (piece : Piece) (h : p.isEmpty = false) :
    (p.putAfter piece).list = p.list ++ [piece] := by
  simp [putAfter, h, list_put]

theorem foldl_putComment (indent : Int) (notes : List String) (p : Page)
    (h : p.isEmpty = false) :
    (notes.foldl (putComment indent) p).list = p.list ++ notePieces indent notes ∧
      (notes.foldl (putComment indent) p).isEmpty = false := by
  induction notes generalizing p with
  | nil => simp [notePieces, h]
  | cons note rest ih =>
    have hnext : (putComment indent p note).isEmpty = false := by simp [putComment]
    obtain ⟨hlist, hempty⟩ := ih _ hnext
    refine ⟨?_, hempty⟩
    rw [List.foldl_cons, hlist]
    simp [putComment, list_put, list_putAfter _ _ h, notePieces]

theorem list_flush (p : Page) (indent : Int) (h : p.isEmpty = false) :
    (p.flush indent).list = p.list ++ notePieces indent p.waiting ∧
      (p.flush indent).isEmpty = false :=
  foldl_putComment indent p.waiting { p with waiting := [] } h

theorem list_startLine (p : Page) (indent noteIndent : Int) (blank : Bool)
    (h : p.isEmpty = false) :
    (p.startLine indent noteIndent blank).list =
        p.list ++ (blankPiece blank ++ (notePieces noteIndent p.waiting ++ [.lineStart indent])) ∧
      (p.startLine indent noteIndent blank).isEmpty = false := by
  have hblank : (if blank then p.putAfter .blank else p).isEmpty = false ∧
      (if blank then p.putAfter .blank else p).list = p.list ++ blankPiece blank ∧
      (if blank then p.putAfter .blank else p).waiting = p.waiting := by
    cases blank <;> simp [h, isEmpty_putAfter, list_putAfter, blankPiece]
  obtain ⟨hempty, hlist, hwaiting⟩ := hblank
  obtain ⟨hflush, hflushed⟩ := list_flush _ noteIndent hempty
  refine ⟨?_, isEmpty_putAfter _ _ hflushed⟩
  rw [startLine, list_putAfter _ _ hflushed, hflush, hlist, hwaiting]
  simp

/-- Laying items on a page that is not empty adds what is laid. -/
theorem list_layAll (items : List Item) (p : Page) (h : p.isEmpty = false) :
    ((p.layAll items).flush 0).list = p.list ++ laid p.waiting items := by
  induction items generalizing p with
  | nil => exact (list_flush p 0 h).1
  | cons item rest ih =>
    rw [layAll_cons]
    cases item with
    | word chars remarks =>
      have hlist : (p.lay (.word chars remarks)).list = p.list ++ [.text chars] := list_put p _
      refine (ih (p.lay (.word chars remarks)) (isEmpty_put p _)).trans ?_
      rw [hlist, List.append_assoc]
      rfl
    | omitted remarks => exact ih (p.lay (.omitted remarks)) h
    | space =>
      have hlist : (p.lay .space).list = p.list ++ [.space] := list_put p _
      refine (ih (p.lay .space) (isEmpty_put p _)).trans ?_
      rw [hlist, List.append_assoc]
      rfl
    | line indent noteIndent blank =>
      obtain ⟨hlist, hempty⟩ := list_startLine p indent noteIndent blank h
      have hwaiting : (p.lay (.line indent noteIndent blank)).waiting = [] :=
        waiting_startLine p indent noteIndent blank
      have hline : (p.lay (.line indent noteIndent blank)).list = _ := hlist
      refine (ih (p.lay (.line indent noteIndent blank)) hempty).trans ?_
      rw [hline, hwaiting, laid]
      simp only [List.append_assoc, List.singleton_append]

/-! ## 3. Pages from the start -/

/-- Items of a program: none, or a line at the left margin that begins with a word. -/
def Begins (items : List Item) : Prop :=
  items = [] ∨ ∃ chars remarks rest, items = .line 0 0 false :: .word chars remarks :: rest

/-- Waiting comments on an empty page: the first one needs no line. -/
theorem flush_empty (note : String) (notes : List String) :
    ((empty.queueAll (note :: notes)).flush 0).list = (notePieces 0 (note :: notes)).tail ∧
      ((empty.queueAll (note :: notes)).flush 0).isEmpty = false := by
  have hflush : (empty.queueAll (note :: notes)).flush 0 =
      notes.foldl (putComment 0) (empty.put (.comment note)) := rfl
  obtain ⟨hlist, hempty⟩ := foldl_putComment 0 notes (empty.put (.comment note)) (isEmpty_put _ _)
  rw [hflush]
  exact ⟨hlist, hempty⟩

/-- What is laid for a program begins with a line start and something on it, if
anything is laid. -/
theorem laid_begins (notes : List String) {items : List Item} (h : Begins items) :
    laid notes items = [] ∨ ∃ text rest, laid notes items = .lineStart 0 :: .text text :: rest ∨
      laid notes items = .lineStart 0 :: .comment text :: rest := by
  obtain rfl | ⟨chars, remarks, rest, rfl⟩ := h
  · cases notes with
    | nil => exact .inl rfl
    | cons note notes => exact .inr ⟨_, _, .inr rfl⟩
  · cases notes with
    | nil => exact .inr ⟨_, _, .inl rfl⟩
    | cons note notes => exact .inr ⟨_, _, .inr rfl⟩

/-- The page of a program is what is laid, less the first line start. -/
theorem list_program (notes : List String) {items : List Item} (h : Begins items) :
    (((empty.queueAll notes).layAll items).flush 0).list = (laid notes items).tail := by
  obtain rfl | ⟨chars, remarks, rest, rfl⟩ := h
  · cases notes with
    | nil => rfl
    | cons note notes => exact (flush_empty note notes).1
  · cases notes with
    | nil =>
      have hline : (empty.queueAll []).layAll (.line 0 0 false :: .word chars remarks :: rest) =
          ((empty.put (.text chars)).queueAll remarks).layAll rest := rfl
      have hempty : ((empty.put (.text chars)).queueAll remarks).isEmpty = false :=
        isEmpty_put empty _
      rw [hline, list_layAll rest _ hempty]
      rfl
    | cons note notes =>
      obtain ⟨hlist, hempty⟩ := flush_empty note notes
      have hline : (empty.queueAll (note :: notes)).layAll
            (.line 0 0 false :: .word chars remarks :: rest) =
          (((empty.queueAll (note :: notes)).flush 0).putAfter (.lineStart 0)).layAll
            (.word chars remarks :: rest) := rfl
      rw [hline, list_layAll _ _ (isEmpty_putAfter _ _ hempty), list_putAfter _ _ hempty, hlist,
        waiting_putAfter, waiting_flush]
      simp [laid, blankPiece, notePieces]

end Page

end LuaLayout
