/-
LuaLayout.Proofs.Page.Operations — what any operations leave on a page.

A page is asked to write, to let a comment wait, to flush and to start lines, in
any order and at any indentation. Each operation looks at two things only: whether
anything has been put down, be it an empty text, and which comments wait. `puts`
is what it adds for them. An empty page swallows the first line start of an
operation and nothing else, so the test for an empty page that each step of a line
start makes for itself comes down to one.

The main statement follows a whole sequence: the page is made of one part for each
operation, and `Explains` tells for every piece of a part why it stands there.
-/
import Mathlib.Data.List.DropRight
import LuaLayout.Proofs.Page.Written

namespace LuaLayout.Page

/-! ## 1. Operations -/

/-- What can be asked of a page. Without an indentation of their own, the comments
before a line stand as deep as the line. -/
inductive Operation
  | write (text : String)
  | queue (comment : String)
  | flush (indent : Int)
  | lineBreak (indent : Int) (noteIndent : Option Int) (blank : Bool)
  deriving DecidableEq, Repr

/-- Carries out one operation. -/
def perform (p : Page) : Operation → Page
  | .write text => p.put (.text text)
  | .queue comment => p.queue comment
  | .flush indent => p.flush indent
  | .lineBreak indent noteIndent blank => p.startLine indent (noteIndent.getD indent) blank

/-- Carries out operations in order. -/
def performAll (p : Page) (operations : List Operation) : Page := operations.foldl perform p

/-- What is put down on a page, without the first line start if nothing was there before. -/
def led (started : Bool) (pieces : List Piece) : List Piece :=
  if started then pieces else pieces.tail

namespace Operation

/-- The comment that the operation lets wait. -/
def queued? : Operation → Option String
  | queue comment => some comment
  | _ => none

/-- Where the operation puts the comments that wait, if it puts them down. -/
def noteIndent? : Operation → Option Int
  | flush indent => some indent
  | lineBreak indent noteIndent _ => some (noteIndent.getD indent)
  | _ => none

/-- The pieces that the operation adds, by whether something is there already and
which comments wait. -/
def puts (started : Bool) (waiting : List String) : Operation → List Piece
  | write text => [.text text]
  | queue _ => []
  | flush indent => led started (notePieces indent waiting)
  | lineBreak indent noteIndent blank =>
    blankPiece (blank && started) ++
      led started (notePieces (noteIndent.getD indent) waiting ++ [.lineStart indent])

/-- Why a piece stands where it does among those that the operation adds: `before`
is all that the page held, `front` and `rest` are its own pieces around this one. -/
def Explains (operation : Operation) (before front : List Piece) : Piece → List Piece → Prop
  | .text text, _ => operation = write text
  | .space, _ => False
  | .comment _, _ => before ++ front = [] ∨
      ∃ indent ∈ operation.noteIndent?, ∃ more, front = more ++ [.lineStart indent]
  | .lineStart indent, rest =>
      (operation.noteIndent? = some indent ∧ ∃ note more, rest = .comment note :: more) ∨
      (rest = [] ∧ ∃ noteIndent blank, operation = lineBreak indent noteIndent blank)
  | .blank, _ => front = [] ∧ before ≠ [] ∧
      ∃ indent noteIndent, operation = lineBreak indent noteIndent true

end Operation

/-- The comments that wait after operations: those queued since the last one that
put the waiting ones down. -/
def waitingAfter (operations : List Operation) : List String :=
  (operations.rtakeWhile (·.noteIndent?.isNone)).filterMap Operation.queued?

/-! ## 2. One operation -/

@[simp] theorem led_true (pieces : List Piece) : led true pieces = pieces := rfl

@[simp] theorem led_false (pieces : List Piece) : led false pieces = pieces.tail := rfl

theorem notePieces_cons (indent : Int) (note : String) (notes : List String) :
    notePieces indent (note :: notes) =
      .lineStart indent :: .comment note :: notePieces indent notes := rfl

theorem isEmpty_eq (p : Page) : p.isEmpty = p.list.isEmpty := by
  simp [isEmpty, list]

theorem list_eq_nil {p : Page} (h : p.isEmpty = true) : p.list = [] := by
  rwa [isEmpty_eq, List.isEmpty_iff] at h

/-- A flush puts down what waits, less the first line start on an empty page. -/
theorem list_flush_led (p : Page) (indent : Int) :
    (p.flush indent).list = p.list ++ led (!p.isEmpty) (notePieces indent p.waiting) := by
  cases hempty : p.isEmpty with
  | false => exact (list_flush p indent hempty).1
  | true =>
    unfold flush
    cases hwaiting : p.waiting with
    | nil =>
      show p.list = p.list ++ []
      rw [List.append_nil]
    | cons note notes =>
      have hfirst : (putComment indent { p with waiting := [] } note).list = [.comment note] := by
        have hafter : ({ p with waiting := [] } : Page).putAfter (.lineStart indent) =
            { p with waiting := [] } := if_pos hempty
        show ((({ p with waiting := [] } : Page).putAfter (.lineStart indent)).put _).list = _
        rw [hafter, list_put]
        exact congrArg (· ++ [Piece.comment note]) (list_eq_nil hempty)
      have hthere : (putComment indent { p with waiting := [] } note).isEmpty = false :=
        isEmpty_put _ _
      rw [List.foldl_cons, (foldl_putComment indent notes _ hthere).1, hfirst, list_eq_nil hempty]
      rfl

/-- Each operation adds what it puts. -/
theorem list_perform (p : Page) (operation : Operation) :
    (p.perform operation).list = p.list ++ operation.puts (!p.isEmpty) p.waiting := by
  cases operation with
  | write text => exact list_put p _
  | queue comment => exact (List.append_nil _).symm
  | flush indent => exact list_flush_led p indent
  | lineBreak indent noteIndent blank =>
    show (p.startLine indent (noteIndent.getD indent) blank).list = _
    cases hempty : p.isEmpty with
    | false =>
      rw [(list_startLine p indent _ blank hempty).1]
      simp [Operation.puts]
    | true =>
      -- Nothing is there, so no line is left blank; a comment that waits makes the page
      -- one that the last line start finds something on.
      have hblank : (if blank then p.putAfter .blank else p) = p := by
        cases blank with
        | false => rfl
        | true => exact if_pos hempty
      unfold startLine
      rw [hblank]
      have hflush := list_flush_led p (noteIndent.getD indent)
      rw [hempty, list_eq_nil hempty, List.nil_append] at hflush
      rw [list_eq_nil hempty]
      cases hwaiting : p.waiting with
      | nil =>
        rw [hwaiting] at hflush
        have hstill : (p.flush (noteIndent.getD indent)).isEmpty = true := by
          rw [isEmpty_eq, hflush]
          rfl
        unfold putAfter
        rw [if_pos hstill, hflush]
        cases blank <;> rfl
      | cons note notes =>
        rw [hwaiting] at hflush
        have hthere : (p.flush (noteIndent.getD indent)).isEmpty = false := by
          rw [isEmpty_eq, hflush]
          rfl
        rw [list_putAfter _ _ hthere, hflush]
        cases blank <;> rfl

/-- Swallowing a line start loses no comment. -/
theorem notes_led (started : Bool) {pieces : List Piece}
    (h : ∀ piece ∈ pieces.head?, piece.note? = none) :
    (led started pieces).filterMap Piece.note? = pieces.filterMap Piece.note? := by
  cases started with
  | true => rfl
  | false =>
    cases pieces with
    | nil => rfl
    | cons piece rest => exact (List.filterMap_cons_none (h piece rfl)).symm

theorem head?_notePieces (indent : Int) (notes : List String) (line : List Piece)
    (hline : ∀ piece ∈ line.head?, piece.note? = none) :
    ∀ piece ∈ (notePieces indent notes ++ line).head?, piece.note? = none := by
  intro piece hpiece
  cases notes with
  | nil => exact hline piece hpiece
  | cons note rest =>
    obtain rfl : Piece.lineStart indent = piece := Option.some.inj hpiece
    rfl

/-- What an operation puts down of the comments that wait, and what it leaves waiting,
are those that waited and the one that it queues. -/
theorem notes_puts (p : Page) (operation : Operation) :
    (operation.puts (!p.isEmpty) p.waiting).filterMap Piece.note? ++ (p.perform operation).waiting =
      p.waiting ++ operation.queued?.toList := by
  cases operation with
  | write text => exact (List.append_nil _).symm
  | queue comment => rfl
  | flush indent =>
    have hstart := head?_notePieces indent p.waiting [] nofun
    rw [List.append_nil] at hstart
    show (led _ _).filterMap _ ++ (p.flush indent).waiting = p.waiting ++ []
    rw [notes_led _ hstart, filterMap_note_notePieces, waiting_flush]
  | lineBreak indent noteIndent blank =>
    have hstart := head?_notePieces (noteIndent.getD indent) p.waiting [.lineStart indent]
      fun _ h => by cases h; rfl
    have hblank : (blankPiece (blank && !p.isEmpty)).filterMap Piece.note? = [] := by
      cases blank <;> cases p.isEmpty <;> rfl
    show (blankPiece _ ++ led _ _).filterMap _ ++ (p.startLine _ _ _).waiting = p.waiting ++ []
    rw [List.filterMap_append, hblank, notes_led _ hstart, List.filterMap_append,
      filterMap_note_notePieces, waiting_startLine]
    simp [Piece.note?]

/-- An operation loses no comment and repeats none. -/
theorem notes_perform (p : Page) (operation : Operation) :
    (p.perform operation).notes ++ (p.perform operation).waiting =
      p.notes ++ p.waiting ++ operation.queued?.toList := by
  rw [notes, list_perform, List.filterMap_append, List.append_assoc, notes_puts, ← List.append_assoc]
  rfl

/-- A piece among comments on lines of their own and what ends them: a line start before a
comment, a comment behind its line start, or a piece of the ending. -/
theorem notePieces_split {indent : Int} {notes : List String} {ending front rest : List Piece}
    {piece : Piece} (h : notePieces indent notes ++ ending = front ++ piece :: rest) :
    (piece = .lineStart indent ∧ ∃ note more, rest = .comment note :: more) ∨
      (∃ note more, piece = .comment note ∧ front = more ++ [.lineStart indent]) ∨
      ∃ more, ending = more ++ piece :: rest := by
  induction notes generalizing front with
  | nil => exact .inr (.inr ⟨front, h⟩)
  | cons note notes ih =>
    rw [notePieces_cons, List.cons_append, List.cons_append] at h
    match front with
    | [] =>
      obtain ⟨rfl, rfl⟩ := List.cons.inj h
      exact .inl ⟨rfl, note, _, rfl⟩
    | [first] =>
      obtain ⟨hfirst, h⟩ := List.cons.inj h
      obtain ⟨hpiece, -⟩ := List.cons.inj h
      exact .inr (.inl ⟨note, [], hpiece.symm, congrArg ([·]) hfirst.symm⟩)
    | first :: second :: front =>
      obtain hline | ⟨note', more, hnote, rfl⟩ | hending := ih (List.cons.inj (List.cons.inj h).2).2
      · exact .inl hline
      · exact .inr (.inl ⟨note', first :: second :: more, hnote, rfl⟩)
      · exact .inr (.inr hending)

/-- What is put down on an empty page lacks its first piece. -/
theorem led_split {started : Bool} {pieces front rest : List Piece} {piece : Piece}
    (h : led started pieces = front ++ piece :: rest) :
    ∃ skipped, pieces = (skipped ++ front) ++ piece :: rest ∧ (started = true → skipped = []) := by
  cases started with
  | true => exact ⟨[], h, fun _ => rfl⟩
  | false =>
    cases pieces with
    | nil => exact absurd h.symm (by simp)
    | cons first more => exact ⟨[first], congrArg (first :: ·) h, nofun⟩

namespace Operation

/-- The pieces of comments on lines of their own are explained, if those of what ends them
are; `lead` is what the operation has put down before. -/
theorem explains_led (lead : List Piece) {operation : Operation} {indent : Int}
    {notes : List String} {before ending front rest : List Piece} {piece : Piece}
    (hindent : operation.noteIndent? = some indent) (hlead : before = [] → lead = [])
    (hending : ∀ more, ending = more ++ piece :: rest →
      operation.Explains before (lead ++ front) piece rest)
    (h : led (!before.isEmpty) (notePieces indent notes ++ ending) = front ++ piece :: rest) :
    operation.Explains before (lead ++ front) piece rest := by
  obtain ⟨skipped, hpieces, hskipped⟩ := led_split h
  obtain ⟨rfl, hnote⟩ | ⟨note, earlier, rfl, hfront⟩ | ⟨later, hlater⟩ := notePieces_split hpieces
  · exact .inl ⟨hindent, hnote⟩
  · obtain rfl | ⟨most, last, rfl⟩ := List.eq_nil_or_concat front
    · -- The comment comes first, so its line start was swallowed by an empty page.
      refine .inl ?_
      cases before with
      | nil => simpa using hlead rfl
      | cons first others =>
        rw [hskipped rfl] at hfront
        exact absurd hfront (by simp)
    · rw [List.concat_eq_append, ← List.append_assoc] at hfront
      obtain ⟨-, rfl⟩ := List.append_singleton_inj.1 hfront
      refine .inr ⟨indent, hindent, lead ++ most, ?_⟩
      rw [List.concat_eq_append, List.append_assoc]
  · exact hending later hlater

/-- Every piece that an operation puts down is explained. -/
theorem explains_puts {operation : Operation} {before front rest : List Piece} {piece : Piece}
    {waiting : List String}
    (h : operation.puts (!before.isEmpty) waiting = front ++ piece :: rest) :
    operation.Explains before front piece rest := by
  cases operation with
  | write text =>
    obtain ⟨rfl, rfl, -⟩ : front = [] ∧ piece = .text text ∧ rest = [] := by
      cases front with
      | nil => simpa [puts, eq_comm] using h
      | cons first more => exact absurd h (by simp [puts])
    rfl
  | queue comment => exact absurd h (by simp [puts])
  | flush indent =>
    have hline : led (!before.isEmpty) (notePieces indent waiting ++ []) = front ++ piece :: rest := by
      rwa [List.append_nil]
    exact explains_led [] rfl (fun _ => rfl) (fun _ hnone => absurd hnone (by simp)) hline
  | lineBreak indent noteIndent blank =>
    have hlast : ∀ whole more, [Piece.lineStart indent] = more ++ piece :: rest →
        (lineBreak indent noteIndent blank).Explains before whole piece rest := by
      intro whole more hmore
      cases more with
      | nil =>
        obtain ⟨rfl, rfl⟩ := List.cons.inj hmore
        exact .inr ⟨rfl, noteIndent, blank, rfl⟩
      | cons first others => exact absurd hmore (by simp)
    cases hblank : blank && !before.isEmpty with
    | false =>
      rw [puts, hblank] at h
      exact explains_led [] rfl (fun _ => rfl) (hlast _) h
    | true =>
      rw [puts, hblank] at h
      obtain ⟨rfl, hbefore⟩ : blank = true ∧ before ≠ [] := by simpa using hblank
      cases front with
      | nil =>
        obtain ⟨rfl, -⟩ := List.cons.inj h
        exact ⟨rfl, hbefore, indent, noteIndent, rfl⟩
      | cons first front =>
        obtain ⟨rfl, hline⟩ := List.cons.inj h
        exact explains_led [.blank] rfl (fun hnil => absurd hnil hbefore) (hlast _) hline

end Operation

/-! ## 3. Sequences of operations -/

theorem performAll_append_singleton (p : Page) (operations : List Operation) (operation : Operation) :
    p.performAll (operations ++ [operation]) = (p.performAll operations).perform operation := by
  simp [performAll]

theorem waitingAfter_append_singleton (operations : List Operation) (operation : Operation) :
    waitingAfter (operations ++ [operation]) =
      if operation.noteIndent?.isNone then waitingAfter operations ++ operation.queued?.toList else [] := by
  unfold waitingAfter
  split
  · next h =>
    rw [List.rtakeWhile_concat_pos (fun x : Operation => x.noteIndent?.isNone) _ _ h,
      List.filterMap_append]
    cases operation <;> rfl
  · next h =>
    rw [List.rtakeWhile_concat_neg (fun x : Operation => x.noteIndent?.isNone) _ _ h,
      List.filterMap_nil]

/-- The comments that wait are those queued since they were last put down. -/
theorem waiting_performAll (operations : List Operation) :
    (empty.performAll operations).waiting = waitingAfter operations := by
  induction operations using List.reverseRecOn with
  | nil => rfl
  | append_singleton operations operation ih =>
    rw [performAll_append_singleton, waitingAfter_append_singleton, ← ih]
    cases operation with
    | write text => exact (List.append_nil _).symm
    | queue comment => rfl
    | flush indent => exact waiting_flush _ _
    | lineBreak indent noteIndent blank => exact waiting_startLine _ _ _ _

/-- Every comment that was queued has been put down or waits, once and in order. -/
theorem notes_performAll (operations : List Operation) :
    (empty.performAll operations).notes ++ (empty.performAll operations).waiting =
      operations.filterMap Operation.queued? := by
  induction operations using List.reverseRecOn with
  | nil => rfl
  | append_singleton operations operation ih =>
    rw [performAll_append_singleton, notes_perform, ih, List.filterMap_append]
    cases operation <;> rfl

/-- Pieces that operations put down, one part for each. -/
theorem exists_parts (operations : List Operation) :
    ∃ parts : List (List Piece), parts.length = operations.length ∧
      (empty.performAll operations).list = parts.flatten ∧
      ∀ (k : Nat) (operation : Operation), operations[k]? = some operation → parts[k]? =
        some (operation.puts (!(parts.take k).flatten.isEmpty) (waitingAfter (operations.take k))) := by
  induction operations using List.reverseRecOn with
  | nil => exact ⟨[], rfl, rfl, nofun⟩
  | append_singleton operations operation ih =>
    obtain ⟨parts, hlength, hlist, hparts⟩ := ih
    refine ⟨parts ++ [operation.puts (!parts.flatten.isEmpty) (waitingAfter operations)], ?_, ?_, ?_⟩
    · simp [hlength]
    · rw [performAll_append_singleton, list_perform, isEmpty_eq, hlist, waiting_performAll]
      simp
    · intro k op hop
      obtain hk | rfl : k < operations.length ∨ k = operations.length := by
        have hbound := (List.getElem?_eq_some_iff.1 hop).1
        rw [List.length_append] at hbound
        exact Nat.lt_or_eq_of_le (Nat.le_of_lt_succ hbound)
      · rw [List.getElem?_append_left hk] at hop
        rw [List.getElem?_append_left (hlength ▸ hk), hparts k op hop,
          List.take_append_of_le_length (hlength ▸ Nat.le_of_lt hk),
          List.take_append_of_le_length (Nat.le_of_lt hk)]
      · obtain rfl : operation = op := by simpa using hop
        rw [← hlength, List.take_left, hlength, List.take_left, ← hlength]
        simp

/-- A page with anything on it ends in what has just been put down there. -/
theorem list_putAfter_ends (p : Page) (piece : Piece) (h : (p.putAfter piece).list ≠ []) :
    ∃ front, (p.putAfter piece).list = front ++ [piece] := by
  cases hempty : p.isEmpty with
  | true =>
    have hsame : p.putAfter piece = p := if_pos hempty
    rw [hsame] at h
    exact absurd (list_eq_nil hempty) h
  | false => exact ⟨p.list, list_putAfter p piece hempty⟩

/-- The law of a page: it is made of one part for each operation, in order, what an
operation adds is told by whether anything stands before it and by the comments that
wait, and every piece of a part is explained. The comments put down and those that
still wait are all that were queued, each once and in order. After a line start none
waits, and a page with anything on it ends in that line's indentation. -/
theorem performAll_accumulates (operations : List Operation) :
    ∃ parts : List (List Piece),
      (parts.length = operations.length ∧
        (empty.performAll operations).list = parts.flatten ∧
        (empty.performAll operations).text = String.ofList (parts.flatten.flatMap Piece.chars)) ∧
      (∀ (k : Nat) (operation : Operation), operations[k]? = some operation →
        ∃ part, parts[k]? = some part ∧
          part = operation.puts (!(parts.take k).flatten.isEmpty)
            (waitingAfter (operations.take k)) ∧
          ∀ front piece rest, part = front ++ piece :: rest →
            operation.Explains (parts.take k).flatten front piece rest) ∧
      parts.flatten.filterMap Piece.note? ++ (empty.performAll operations).waiting =
        operations.filterMap Operation.queued? ∧
      ∀ earlier indent noteIndent blank,
        operations = earlier ++ [.lineBreak indent noteIndent blank] →
          (empty.performAll operations).waiting = [] ∧
          (parts.flatten ≠ [] → ∃ front, (empty.performAll operations).chars =
            front ++ '\n' :: List.replicate indent.toNat ' ') := by
  obtain ⟨parts, hlength, hlist, hparts⟩ := exists_parts operations
  refine ⟨parts, ⟨hlength, hlist, ?_⟩, ?_, ?_, ?_⟩
  · rw [← hlist]
    rfl
  · intro k operation hoperation
    refine ⟨_, hparts k operation hoperation, rfl, ?_⟩
    intro front piece rest hsplit
    exact Operation.explains_puts hsplit
  · rw [← hlist]
    exact notes_performAll operations
  · intro earlier indent noteIndent blank hlast
    subst hlast
    rw [performAll_append_singleton] at hlist ⊢
    refine ⟨waiting_startLine _ _ _ _, ?_⟩
    intro hany
    rw [← hlist] at hany
    obtain ⟨front, hfront⟩ := list_putAfter_ends _ (.lineStart indent) hany
    refine ⟨front.flatMap Piece.chars, ?_⟩
    calc ((empty.performAll earlier).perform (.lineBreak indent noteIndent blank)).chars
        = (front ++ [Piece.lineStart indent]).flatMap Piece.chars :=
          congrArg (List.flatMap Piece.chars) hfront
      _ = front.flatMap Piece.chars ++ '\n' :: List.replicate indent.toNat ' ' := by
          rw [List.flatMap_append]
          simp [Piece.chars]

/-- A blank line is left only where something stands, even an empty text; the comments
that wait go before the line. -/
example : (empty.performAll [.queue "--a", .lineBreak 4 none true, .write "", .queue "--b",
    .lineBreak 0 (some 2) true]).text = "--a\n    \n\n  --b\n" := by decide

end LuaLayout.Page
