/-
LuaLayout.Proofs.Lexing.Lossless — no character is lost, and every token is in
its place.

A scanner may be fed, told that its text is complete, and given tokens by hand,
in any order. Whatever happened to it, the tokens it cut off and what is pending
are the text it received, and each token stands where the tokens before it lead
to. `Unclosed` describes the texts that a scan can stop at without a word about
how classes read: an opener, and no closer behind it. Since some class applies
wherever a character is left, a completed scan stops at such a text or at the
end, and the opener decides what is reported.
-/
import Mathlib.Data.List.DropRight
import Mathlib.Data.List.Induction
import LuaLayout.Proofs.Lexing.Cuts

namespace LuaLayout

/-! ## 1. Openers without a closer -/

/-- The text begins with an opener that nothing behind it closes, and the cause
says of which kind. -/
def Unclosed : LexicalCause → List Char → Prop
  | .unfinishedComment, text => ∃ level body,
      text = '-' :: '-' :: Lexeme.longOpener level ++ body ∧ ¬ Lexeme.longCloser level <:+: body
  | .unfinishedLongString, text => ∃ level body,
      text = Lexeme.longOpener level ++ body ∧ ¬ Lexeme.longCloser level <:+: body
  | .unfinishedString, text => ∃ quote body, quote ∈ ['"', '\''] ∧ text = quote :: body ∧
      -- Every quote that follows is escaped.
      ∀ before after, body = before ++ quote :: after →
        Lexeme.backslashesBefore before.reverse % 2 = 1
  | .invalidCharacters, _ => False

namespace Lexeme

theorem cutAfter?_eq_none_iff {mark text : List Char} (hne : mark ≠ []) :
    cutAfter? mark text = none ↔ ¬ mark <:+: text := by
  induction text with
  | nil => simp [cutAfter?, hne]
  | cons c rest ih =>
    rw [cutAfter?, List.infix_cons_iff, not_or, ← ih]
    split
    · next hp => simp [List.isPrefixOf_iff_prefix.1 hp]
    · next hp =>
      rw [List.isPrefixOf_iff_prefix] at hp
      simp [hp]

theorem closeQuote?_eq_none_iff {quote : Char} {seen text : List Char} :
    closeQuote? quote seen text = none ↔ ∀ before after, text = before ++ quote :: after →
      backslashesBefore (before.reverse ++ seen) % 2 = 1 := by
  induction text generalizing seen with
  | nil => simp [closeQuote?]
  | cons c rest ih =>
    rw [closeQuote?]
    constructor
    · intro h before after heq
      split at h
      · cases h
      · next hc =>
        cases before with
        | nil =>
          obtain rfl : c = quote := (List.cons.inj heq).1
          simp only [beq_self_eq_true, Bool.true_and, beq_iff_eq] at hc
          simp only [List.reverse_nil, List.nil_append]
          omega
        | cons d before =>
          obtain ⟨rfl, hrest⟩ := List.cons.inj heq
          simpa using ih.1 h before after hrest
    · intro h
      rw [if_neg, ih]
      · intro before after hrest
        simpa using h (c :: before) after (by rw [hrest, List.cons_append])
      · intro hc
        rw [Bool.and_eq_true, beq_iff_eq, beq_iff_eq] at hc
        obtain ⟨rfl, heven⟩ := hc
        have hodd := h [] rest rfl
        simp only [List.reverse_nil, List.nil_append] at hodd
        omega

theorem longString_unfinished_iff {text : List Char} :
    longString text = some .unfinished ↔ Unclosed .unfinishedLongString text := by
  constructor
  · intro h
    obtain ⟨⟨level, body⟩, hopener, hread⟩ := Option.map_eq_some_iff.1 h
    refine ⟨level, body, longOpener?_eq hopener, ?_⟩
    simp only at hread
    split at hread
    · cases hread
    · next hnone => exact (cutAfter?_eq_none_iff (by simp [longCloser])).1 hnone
  · rintro ⟨level, body, rfl, hnone⟩
    rw [longString, longOpener?_append, Option.map_some]
    simp only [(cutAfter?_eq_none_iff (by simp [longCloser])).2 hnone]

theorem longComment_unfinished_iff {text : List Char} :
    longComment text = some .unfinished ↔ Unclosed .unfinishedComment text := by
  constructor
  · intro h
    unfold longComment at h
    split at h
    · next rest =>
      obtain ⟨reading, hreading, heq⟩ := Option.map_eq_some_iff.1 h
      cases reading with
      | unfinished =>
        obtain ⟨level, body, rfl, hnone⟩ := longString_unfinished_iff.1 hreading
        exact ⟨level, body, rfl, hnone⟩
      | found b r => cases heq
    · cases h
  · rintro ⟨level, body, rfl, hnone⟩
    rw [List.cons_append, List.cons_append, longComment,
      longString_unfinished_iff.2 ⟨level, body, rfl, hnone⟩]
    rfl

theorem quoted_unfinished_iff {quote : Char} {text : List Char} :
    quoted quote text = some .unfinished ↔ ∃ body, text = quote :: body ∧
      ∀ before after, body = before ++ quote :: after →
        backslashesBefore before.reverse % 2 = 1 := by
  constructor
  · intro h
    unfold quoted at h
    split at h
    · cases h
    · next c rest =>
      split at h
      · next hc =>
        obtain rfl := eq_of_beq hc
        split at h
        · cases h
        · next hnone => exact ⟨rest, rfl, by simpa using closeQuote?_eq_none_iff.1 hnone⟩
      · cases h
  · rintro ⟨body, rfl, hescaped⟩
    have hnone : closeQuote? quote [] body = none :=
      closeQuote?_eq_none_iff.2 (by simpa using hescaped)
    rw [quoted, if_pos (beq_self_eq_true quote), hnone]

theorem closed_ne_unfinished {cut? : List Char → Option Cut} {text : List Char} :
    closed cut? text ≠ some .unfinished := by
  intro h
  obtain ⟨c, -, hc⟩ := Option.map_eq_some_iff.1 h
  cases hc

/-- Only an opener that is never closed is left unfinished. -/
theorem unclosed_of_first? {text : List Char} {kind : TokenKind}
    (h : first? text = some (kind, .unfinished)) : ∃ cause, Unclosed cause text := by
  obtain ⟨read, hmem, hread⟩ := class_of_first? h
  simp only [classes, List.mem_cons, Prod.mk.injEq, List.not_mem_nil, or_false] at hmem
  rcases hmem with ⟨-, rfl⟩ | ⟨-, rfl⟩ | ⟨-, rfl⟩ | ⟨-, rfl⟩ | ⟨-, rfl⟩ | ⟨-, rfl⟩ | ⟨-, rfl⟩ |
    ⟨-, rfl⟩ | ⟨-, rfl⟩ | ⟨-, rfl⟩ | ⟨-, rfl⟩ | ⟨-, rfl⟩ | ⟨-, rfl⟩
  case inr.inr.inr.inr.inr.inl => exact ⟨_, longComment_unfinished_iff.1 hread⟩
  case inr.inr.inr.inr.inr.inr.inr.inl => exact ⟨_, longString_unfinished_iff.1 hread⟩
  case inr.inr.inr.inr.inr.inr.inr.inr.inl =>
    obtain ⟨body, rfl, hescaped⟩ := quoted_unfinished_iff.1 hread
    exact ⟨.unfinishedString, '"', body, by simp, rfl, hescaped⟩
  case inr.inr.inr.inr.inr.inr.inr.inr.inr.inl =>
    obtain ⟨body, rfl, hescaped⟩ := quoted_unfinished_iff.1 hread
    exact ⟨.unfinishedString, '\'', body, by simp, rfl, hescaped⟩
  all_goals exact absurd hread closed_ne_unfinished

/-- The class of the opener is the first that applies, so it decides. -/
theorem first?_of_unclosed {text : List Char} {cause : LexicalCause} (h : Unclosed cause text) :
    ∃ kind, first? text = some (kind, .unfinished) := by
  cases cause with
  | unfinishedComment =>
    have hread := longComment_unfinished_iff.2 h
    obtain ⟨level, body, rfl, -⟩ := h
    exact ⟨.blockComment, first?_of_class 5 rfl
      (not_numeric_of _ (by decide) (by decide) nofun) hread⟩
  | unfinishedLongString =>
    have hread := longString_unfinished_iff.2 h
    obtain ⟨level, body, rfl, -⟩ := h
    exact ⟨.blockQuote, first?_of_class 7 rfl
      (not_comment_of (not_numeric_of _ (by decide) (by decide) nofun) nofun) hread⟩
  | unfinishedString =>
    obtain ⟨quote, body, hquote, rfl, hescaped⟩ := h
    have hread := quoted_unfinished_iff.2 ⟨body, rfl, hescaped⟩
    simp only [List.mem_cons, List.not_mem_nil, or_false] at hquote
    rcases hquote with rfl | rfl
    · exact ⟨.doubleQuoted, first?_of_class 8 rfl (not_long_of (not_comment_of
        (not_numeric_of _ (by decide) (by decide) nofun) nofun) nofun) hread⟩
    · refine ⟨.singleQuoted, first?_of_class 9 rfl (none_succ 8 rfl (not_long_of (not_comment_of
        (not_numeric_of _ (by decide) (by decide) nofun) nofun) nofun) ?_) hread⟩
      exact quoted_eq_none _ (by decide)
  | invalidCharacters => exact h.elim

end Lexeme

/-- A scan stops at the end of the text or at an opener that is never closed. -/
theorem stuck_iff {rest : List Char} : Stuck rest ↔ rest = [] ∨ ∃ cause, Unclosed cause rest := by
  constructor
  · intro h
    cases rest with
    | nil => exact .inl rfl
    | cons c rest =>
      obtain ⟨⟨kind, reading⟩, hfirst⟩ := Option.isSome_iff_exists.1 (Lexeme.first?_isSome c rest)
      cases reading with
      | unfinished => exact .inr (Lexeme.unclosed_of_first? hfirst)
      | found b r => exact absurd hfirst (h kind b r)
  · rintro (rfl | ⟨cause, hunclosed⟩)
    · exact stuck_nil
    · intro kind b r hfirst
      obtain ⟨kind', hunfinished⟩ := Lexeme.first?_of_unclosed hunclosed
      rw [hfirst] at hunfinished
      cases hunfinished

namespace Unclosed

variable {text : List Char} {cause : LexicalCause}

/-- The opening shows the cause. -/
theorem causeOf (h : Unclosed cause text) : Scanner.causeOf text = cause := by
  cases cause with
  | unfinishedComment =>
    obtain ⟨level, body, rfl, -⟩ := h
    rfl
  | unfinishedLongString =>
    obtain ⟨level, body, rfl, -⟩ := h
    rfl
  | unfinishedString =>
    obtain ⟨quote, body, hquote, rfl, -⟩ := h
    simp only [List.mem_cons, List.not_mem_nil, or_false] at hquote
    rcases hquote with rfl | rfl <;> rfl
  | invalidCharacters => exact h.elim

theorem ne_nil (h : Unclosed cause text) : text ≠ [] := by
  rintro rfl
  obtain ⟨kind, hfirst⟩ := Lexeme.first?_of_unclosed h
  rw [Lexeme.first?_nil] at hfirst
  cases hfirst

end Unclosed

/-! ## 2. Places -/

/-- The characters of a line up to the end of the text. -/
def lastLine (text : List Char) : List Char := text.rtakeWhile (· != '\n')

/-- The position behind a text: the line feeds in it are counted, and the
characters behind the last of them. -/
def positionAfter (text : List Char) : Position :=
  ⟨1 + text.count '\n', 1 + (lastLine text).length⟩

theorem advance_start (text : List Char) : Position.start.advance text = positionAfter text := by
  induction text using List.reverseRecOn with
  | nil => rfl
  | append_singleton text c ih =>
    rw [Position.advance_append, ih]
    by_cases hc : c = '\n'
    · subst hc
      simp [Position.advance, Position.step, positionAfter, lastLine, List.rtakeWhile, Int.add_assoc]
    · have hcount : List.count '\n' [c] = 0 := List.count_eq_zero.2 (by simpa using Ne.symm hc)
      simp [Position.advance, Position.step, positionAfter, lastLine, List.rtakeWhile, hc, hcount,
        Int.add_assoc]

/-- The characters of tokens, one after the other. -/
def charsOf (tokens : List Token) : List Char := tokens.flatMap (·.text.toList)

theorem charsOf_append (tokens more : List Token) :
    charsOf (tokens ++ more) = charsOf tokens ++ charsOf more := List.flatMap_append

theorem charsOf_place (p : Position) (segments : List Segment) :
    charsOf (Segment.place p segments) = segments.flatMap Segment.chars := by
  induction segments generalizing p with
  | nil => rfl
  | cons s rest ih =>
    change (String.ofList s.chars).toList ++ charsOf (Segment.place _ rest) = _
    rw [ih, String.toList_ofList, List.flatMap_cons]

/-- Every token stands where the characters before it lead to. -/
def Placed (tokens : List Token) : Prop :=
  ∀ before t after, tokens = before ++ t :: after → t.pos = positionAfter (charsOf before)

/-- Every token of a text that begins behind other tokens stands where they and
the tokens before it lead to. -/
theorem Placed.append_place {tokens : List Token} (h : Placed tokens) (segments : List Segment) :
    Placed (tokens ++ Segment.place (positionAfter (charsOf tokens)) segments) := by
  induction segments generalizing tokens with
  | nil => rwa [Segment.place, List.append_nil]
  | cons s rest ih =>
    -- One token more, and the rest of them behind it.
    have hone : Placed (tokens ++ [⟨s.kind, String.ofList s.chars, positionAfter (charsOf tokens)⟩]) := by
      intro before t after heq
      rcases List.append_eq_append_iff.1 heq with ⟨z, hbefore, hlast⟩ | ⟨z, htokens, hlast⟩
      · cases z with
        | nil =>
          obtain ⟨rfl, -⟩ := List.cons.inj hlast
          rw [hbefore, List.append_nil]
        | cons x z => simp at hlast
      · cases z with
        | nil =>
          obtain ⟨rfl, -⟩ := List.cons.inj hlast
          rw [htokens, List.append_nil]
        | cons x z =>
          obtain ⟨rfl, -⟩ := List.cons.inj hlast
          exact h before t z htokens
    have hpos : positionAfter (charsOf (tokens ++
        [⟨s.kind, String.ofList s.chars, positionAfter (charsOf tokens)⟩])) =
          (positionAfter (charsOf tokens)).advance s.chars := by
      rw [charsOf_append, ← advance_start, Position.advance_append, advance_start]
      simp [charsOf]
    have hrest := ih hone
    rwa [hpos, List.append_assoc, List.singleton_append] at hrest

/-! ## 3. Runs of a scanner -/

/-- What can be done with a scanner. -/
inductive Move
  /-- More of the text arrives. -/
  | feed (chunk : String)
  /-- The text is taken to be complete; the scan may end in a fault. -/
  | finish
  /-- A token is given by hand. -/
  | add (kind : TokenKind) (text : String)
  deriving DecidableEq, Repr

namespace Move

/-- The text that a move brings. -/
def chunk : Move → String
  | feed chunk => chunk
  | finish => ""
  | add _ _ => ""

end Move

namespace Scanner

/-- The scanner after a move. -/
def move (s : Scanner) : Move → Scanner
  | .feed chunk => s.feed chunk
  | .finish => s.finish
  | .add kind text => s.add kind text

/-- The scanner after moves in order. -/
def moveAll (s : Scanner) (moves : List Move) : Scanner := moves.foldl move s

/-- The tokens that a move cuts off the text. A token given by hand is none. -/
def scannedBy (s : Scanner) : Move → List Token
  | .add _ _ => []
  | m => (s.move m).tokens.toList.drop s.tokens.size

/-- The tokens that moves in order cut off the text. -/
def scanned (s : Scanner) : List Move → List Token
  | [] => []
  | m :: rest => s.scannedBy m ++ (s.move m).scanned rest

/-- The tokens of a scanner stand in their places, and it goes on behind them. -/
structure InPlace (s : Scanner) : Prop where
  placed : Placed s.tokens.toList
  pos : s.pos = positionAfter (charsOf s.tokens.toList)

theorem inPlace_start (text : String) : (start text).InPlace :=
  { placed := fun before t after heq => by simp [start] at heq
    pos := rfl }

namespace InPlace

variable {s : Scanner}

/-- A scanner whose tokens are followed by segments in their places. -/
theorem push (h : s.InPlace) (segments : List Segment) (pending : List Char) :
    InPlace ⟨pending, s.pos.advance (segments.flatMap Segment.chars),
      s.tokens ++ (Segment.place s.pos segments).toArray⟩ := by
  constructor
  · rw [Array.toList_append, h.pos]
    exact h.placed.append_place segments
  · rw [Array.toList_append, charsOf_append, charsOf_place, h.pos, ← advance_start,
      ← advance_start, Position.advance_append]

theorem scan (h : s.InPlace) (complete : Bool) : (s.scan complete).InPlace := by
  rw [scan_eq]
  exact h.push _ _

theorem move (h : s.InPlace) (m : Move) : (s.move m).InPlace := by
  cases m with
  | feed chunk =>
    have hfed : InPlace { s with pending := s.pending ++ chunk.toList } := ⟨h.placed, h.pos⟩
    exact hfed.scan false
  | finish => exact h.scan true
  | add kind text =>
    have hpush := h.push [⟨kind, text.toList⟩] s.pending
    simpa [Scanner.move, add, Segment.place] using hpush

theorem moveAll (h : s.InPlace) (moves : List Move) : (s.moveAll moves).InPlace := by
  induction moves generalizing s with
  | nil => exact h
  | cons m rest ih => exact ih (h.move m)

end InPlace

/-- A scan loses nothing of what is pending. -/
theorem charsOf_scan (s : Scanner) (complete : Bool) :
    charsOf ((s.scan complete).tokens.toList.drop s.tokens.size) ++ (s.scan complete).pending =
      s.pending := by
  rw [scan_eq]
  simp only [Array.toList_append]
  rw [List.drop_left' Array.length_toList, charsOf_place]
  exact Segment.cut_append complete s.pending

/-- No move loses anything of the text. -/
theorem charsOf_move (s : Scanner) (m : Move) :
    charsOf (s.scannedBy m) ++ (s.move m).pending = s.pending ++ m.chunk.toList := by
  cases m with
  | feed chunk => exact charsOf_scan { s with pending := s.pending ++ chunk.toList } false
  | finish =>
    rw [Move.chunk, String.toList_empty, List.append_nil]
    exact charsOf_scan s true
  | add kind text => simp [scannedBy, move, add, Move.chunk, charsOf]

theorem charsOf_moveAll (s : Scanner) (moves : List Move) :
    charsOf (s.scanned moves) ++ (s.moveAll moves).pending =
      s.pending ++ (String.join (moves.map Move.chunk)).toList := by
  induction moves generalizing s with
  | nil => simp [scanned, charsOf, moveAll]
  | cons m rest ih =>
    rw [scanned, charsOf_append, List.append_assoc]
    have hrest := ih (s.move m)
    rw [show (s.move m).moveAll rest = s.moveAll (m :: rest) from rfl] at hrest
    rw [hrest, ← List.append_assoc, charsOf_move]
    simp

/-- A completed scan stops at the end of the text or at an opener that is never
closed. -/
theorem stuck_finish (s : Scanner) : Stuck s.finish.pending := by
  rw [finish, scan_eq]
  exact (Segment.cut_eq_iff.1 (Prod.eta (Segment.cut true s.pending)).symm).2

theorem result_eq_error_iff (s : Scanner) (fault : Fault) :
    s.result = .error fault ↔
      ∃ cause, Unclosed cause s.finish.pending ∧ fault = .lexical cause s.finish.pos := by
  have hstuck := stuck_iff.1 s.stuck_finish
  rw [result, fault?]
  constructor
  · intro h
    split at h
    · next fault' hfault =>
      split at hfault
      · cases hfault
      · next hne =>
        obtain rfl := Option.some.inj hfault
        obtain rfl := Except.error.inj h
        rw [List.isEmpty_iff] at hne
        obtain ⟨cause, hcause⟩ := hstuck.resolve_left hne
        exact ⟨cause, hcause, by rw [hcause.causeOf]⟩
    · cases h
  · rintro ⟨cause, hcause, rfl⟩
    have hne : s.finish.pending.isEmpty = false := by simpa using hcause.ne_nil
    simp [hne, hcause.causeOf]

theorem result_eq_ok_iff (s : Scanner) (tokens : List Token) :
    s.result = .ok tokens ↔ s.finish.pending = [] ∧ tokens = s.finish.tokens.toList := by
  rw [result, fault?]
  cases hpending : s.finish.pending with
  | nil => simp [eq_comm]
  | cons c rest => simp

/-- After any moves, the tokens cut off and what is pending are the text that
came; every token, cut off or given, has the position that the tokens before it
lead to, and the scanner goes on behind the last. The text is complete with a
fault exactly if the scan is left with an opener that is never closed, and the
fault is at that opener; nothing else stops it. -/
theorem moveAll_lossless (init : String) (moves : List Move) :
    let s := (start init).moveAll moves
    charsOf ((start init).scanned moves) ++ s.pending =
        (init ++ String.join (moves.map Move.chunk)).toList ∧
      (∀ before t after, s.tokens.toList = before ++ t :: after →
        t.pos = positionAfter (charsOf before)) ∧
      s.pos = positionAfter (charsOf s.tokens.toList) ∧
      (∀ fault, s.result = .error fault ↔
        ∃ cause, Unclosed cause s.finish.pending ∧ fault = .lexical cause s.finish.pos) ∧
      (∀ tokens, s.result = .ok tokens ↔
        s.finish.pending = [] ∧ tokens = s.finish.tokens.toList) := by
  intro s
  have hplace : s.InPlace := (inPlace_start init).moveAll moves
  refine ⟨?_, hplace.placed, hplace.pos, s.result_eq_error_iff, s.result_eq_ok_iff⟩
  rw [String.toList_append]
  exact charsOf_moveAll (start init) moves

/-- A long string in two chunks, with a fault and a token given by hand between
them: it begins where that token ends, on the second line. -/
theorem moveAll_lossless_longString :
    let moves : List Move :=
      [.feed "x = [[a\n", .finish, .add .lineComment "--\n", .feed "]]\n"]
    let before := ((start "").moveAll moves).tokens.toList.take 5
    let t : Token := ⟨.blockQuote, "[[a\n]]", ⟨2, 1⟩⟩
    ((start "").moveAll moves).tokens.toList = before ++ t :: [] ∧
      t.pos = positionAfter (charsOf before) ∧
      charsOf ((start "").scanned moves) ++ ((start "").moveAll moves).pending =
        ("" ++ String.join (moves.map Move.chunk)).toList := by
  intro moves before t
  have htokens : ((start "").moveAll moves).tokens.toList = before ++ t :: [] := by decide +kernel
  exact ⟨htokens, (moveAll_lossless "" moves).2.1 before t [] htokens,
    (moveAll_lossless "" moves).1⟩

end Scanner

end LuaLayout
