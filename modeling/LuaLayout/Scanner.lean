/-
LuaLayout.Scanner — cutting a text into tokens, all at once or as it arrives.

A scanner holds the characters that no token was made of yet, the position
after the last token, and the tokens. Fed with a chunk, it makes a token only
where a line feed still stands behind it in what has arrived: such a token ends
the same way whatever comes later. When the text is complete the rest is cut as
well, up to the first opener that is never closed.
-/
import LuaLayout.Fault
import LuaLayout.Lexeme.Classes

namespace LuaLayout

/-! ## 1. Segments -/

/-- A piece of text of one lexical class. -/
structure Segment where
  kind : TokenKind
  chars : List Char
  deriving DecidableEq, Repr

namespace Segment

/-- A lexeme may be cut off before the rest of the text: the text is complete,
or a line feed follows. -/
def isSettled (complete : Bool) (rest : List Char) : Bool := complete || rest.contains '\n'

/-- The leading segments that may be cut off, and the rest, in at most the given
number of cuts. -/
def cutWithin (complete : Bool) : Nat → List Char → List Segment × List Char
  | 0, text => ([], text)
  | bound + 1, text =>
    match Lexeme.first? text with
    | some (kind, .found body rest) =>
      if isSettled complete rest then
        let (later, remaining) := cutWithin complete bound rest
        (⟨kind, body⟩ :: later, remaining)
      else ([], text)
    | _ => ([], text)

/-- The leading segments that may be cut off, and the rest. No segment is empty,
so there are at most as many as characters. -/
def cut (complete : Bool) (text : List Char) : List Segment × List Char :=
  cutWithin complete text.length text

/-- Cutting loses nothing. -/
theorem cutWithin_append (complete : Bool) (bound : Nat) (text : List Char) :
    (cutWithin complete bound text).1.flatMap chars ++ (cutWithin complete bound text).2 =
      text := by
  induction bound generalizing text with
  | zero => rfl
  | succ bound ih =>
    unfold cutWithin
    split
    · next kind body rest h =>
      split
      · simp only [List.flatMap_cons, List.append_assoc, ih]
        exact (Lexeme.first?_of h).2
      · rfl
    · rfl

/-- Any bound that reaches the length gives the same cuts. -/
theorem cutWithin_congr (complete : Bool) {m n : Nat} {text : List Char}
    (hm : text.length ≤ m) (hn : text.length ≤ n) :
    cutWithin complete m text = cutWithin complete n text := by
  induction m generalizing n text with
  | zero =>
    obtain rfl : text = [] := List.eq_nil_of_length_eq_zero (by omega)
    cases n <;> simp [cutWithin, Lexeme.first?_nil]
  | succ m ih =>
    cases n with
    | zero =>
      obtain rfl : text = [] := List.eq_nil_of_length_eq_zero (by omega)
      simp [cutWithin, Lexeme.first?_nil]
    | succ n =>
      unfold cutWithin
      split
      · next kind body rest h =>
        have hlt := Lexeme.first?_rest_lt h
        rw [ih (n := n) (by omega) (by omega)]
      · rfl

/-- The bound plays no part: what follows a segment is cut like a text of its own. -/
theorem cut_eq (complete : Bool) (text : List Char) :
    cut complete text =
      match Lexeme.first? text with
      | some (kind, .found body rest) =>
        if isSettled complete rest then
          (⟨kind, body⟩ :: (cut complete rest).1, (cut complete rest).2)
        else ([], text)
      | _ => ([], text) := by
  rw [cut, cutWithin_congr complete (Nat.le_refl _) (Nat.le_succ _), cutWithin]
  cases h : Lexeme.first? text with
  | none => rfl
  | some found =>
    obtain ⟨kind, reading⟩ := found
    cases reading with
    | unfinished => rfl
    | found body rest =>
      have hlt := Lexeme.first?_rest_lt h
      simp only [cutWithin_congr complete (Nat.le_of_lt hlt) (Nat.le_refl rest.length)]
      rfl

theorem cut_append (complete : Bool) (text : List Char) :
    (cut complete text).1.flatMap chars ++ (cut complete text).2 = text :=
  cutWithin_append complete text.length text

end Segment

/-! ## 2. Scanners -/

/-- A text on its way into tokens. -/
structure Scanner where
  pending : List Char
  pos : Position
  tokens : Array Token

namespace Scanner

/-- A scanner before any token, with text to start from. -/
def start (text : String) : Scanner := ⟨text.toList, Position.start, #[]⟩

/-- One more token at the current position, which moves past its text. -/
def add (s : Scanner) (kind : TokenKind) (text : String) : Scanner :=
  { s with pos := s.pos.advance text.toList, tokens := s.tokens.push ⟨kind, text, s.pos⟩ }

/-- Makes tokens of the leading segments of the pending text. -/
def scan (s : Scanner) (complete : Bool) : Scanner :=
  let (segments, rest) := Segment.cut complete s.pending
  segments.foldl (fun s segment => s.add segment.kind (String.ofList segment.chars))
    { s with pending := rest }

/-- Takes in a chunk and makes the tokens that later text cannot change. -/
def feed (s : Scanner) (chunk : String) : Scanner :=
  { s with pending := s.pending ++ chunk.toList }.scan false

/-- The cause that an unfinished text shows by its opening. -/
def causeOf : List Char → LexicalCause
  | '-' :: '-' :: _ => .unfinishedComment
  | '[' :: _ => .unfinishedLongString
  | _ => .unfinishedString

/-- The fault of a completed scan: text is left. -/
def fault? (s : Scanner) : Option Fault :=
  if s.pending.isEmpty then none else some (.lexical (causeOf s.pending) s.pos)

/-- Makes tokens of all that is pending, as far as possible. -/
def finish (s : Scanner) : Scanner := s.scan true

/-- The tokens of the completed text, or the fault that stopped it. -/
def result (s : Scanner) : Except Fault (List Token) :=
  match s.finish.fault? with
  | some fault => .error fault
  | none => .ok s.finish.tokens.toList

end Scanner

/-! ## 3. Whole texts -/

/-- The tokens of a text. -/
def tokenize (text : String) : Except Fault (List Token) := (Scanner.start text).result

/-- The tokens of a text that arrives in chunks. -/
def tokenizeChunks (chunks : List String) : Except Fault (List Token) :=
  (chunks.foldl Scanner.feed (Scanner.start "")).result

end LuaLayout
