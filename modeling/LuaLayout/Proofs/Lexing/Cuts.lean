/-
LuaLayout.Proofs.Lexing.Cuts — whole texts, segment by segment.

`Cuts` relates a text to its leading segments and to what they leave. A text is
cut as far as possible when nothing more can be cut off the rest, and then the
segments are the only ones. So a text that is cut in two goes, as far as
possible each time, gives the segments of one go; and the tokens of a text are
its segments, each at the position that those before it lead to.
-/
import LuaLayout.Scanner
import LuaLayout.Proofs.Lexing.Follows

namespace LuaLayout

/-! ## 1. Segments one after the other -/

/-- The text begins with the segments, and the rest comes after them. -/
inductive Cuts : List Char → List Segment → List Char → Prop
  | nil (text : List Char) : Cuts text [] text
  | cons {text b r rest : List Char} {kind : TokenKind} {segments : List Segment} :
      Lexeme.first? text = some (kind, .found b r) → Cuts r segments rest →
      Cuts text (⟨kind, b⟩ :: segments) rest

/-- No segment can be cut off. -/
def Stuck (rest : List Char) : Prop :=
  ∀ kind b r, Lexeme.first? rest ≠ some (kind, .found b r)

theorem stuck_nil : Stuck [] := by
  intro kind b r h
  rw [Lexeme.first?_nil] at h
  cases h

namespace Cuts

variable {text rest end_ : List Char} {segments more : List Segment}

theorem append (h : Cuts text segments rest) (hmore : Cuts rest more end_) :
    Cuts text (segments ++ more) end_ := by
  induction h with
  | nil text => exact hmore
  | cons hfirst _ ih => exact .cons hfirst (ih hmore)

/-- Cutting loses nothing. -/
theorem chars_append (h : Cuts text segments rest) :
    segments.flatMap Segment.chars ++ rest = text := by
  induction h with
  | nil text => rfl
  | cons hfirst _ ih =>
    rw [List.flatMap_cons, List.append_assoc, ih]
    exact (Lexeme.first?_of hfirst).2

theorem isLexeme (h : Cuts text segments rest) :
    ∀ s ∈ segments, Lexeme.IsLexeme s.kind s.chars := by
  induction h with
  | nil text => simp
  | cons hfirst _ ih =>
    rw [List.forall_mem_cons]
    exact ⟨Lexeme.isLexeme_of_first? hfirst, ih⟩

end Cuts

namespace Segment

theorem cutWithin_cuts (complete : Bool) (bound : Nat) (text : List Char) :
    Cuts text (cutWithin complete bound text).1 (cutWithin complete bound text).2 := by
  induction bound generalizing text with
  | zero => exact .nil text
  | succ bound ih =>
    unfold cutWithin
    split
    · next kind b r h =>
      split
      · exact .cons h (ih r)
      · exact .nil text
    · exact .nil text

theorem cut_cuts (complete : Bool) (text : List Char) :
    Cuts text (cut complete text).1 (cut complete text).2 :=
  cutWithin_cuts complete text.length text

/-- A complete text is cut as far as possible, and that in one way only. -/
theorem cut_eq_iff {text rest : List Char} {segments : List Segment} :
    cut true text = (segments, rest) ↔ Cuts text segments rest ∧ Stuck rest := by
  constructor
  · intro h
    have hcuts : Cuts text segments rest := by
      have hcut := cut_cuts true text
      rwa [h] at hcut
    refine ⟨hcuts, ?_⟩
    induction hcuts with
    | nil text =>
      intro kind b r hfirst
      rw [cut_eq, hfirst] at h
      simp [isSettled] at h
    | cons hfirst _ ih =>
      rw [cut_eq, hfirst] at h
      simp only [isSettled, Bool.true_or, if_true, Prod.mk.injEq, List.cons.injEq, true_and] at h
      exact ih (Prod.ext h.1 h.2)
  · rintro ⟨hcuts, hstuck⟩
    induction hcuts with
    | nil text =>
      rw [cut_eq]
      split
      · next kind b r h => exact absurd h (hstuck kind b r)
      · rfl
    | cons hfirst _ ih =>
      rw [cut_eq, hfirst]
      simp [isSettled, ih hstuck]

/-- Cutting first what is settled and then the rest is cutting at once. -/
theorem cut_false_true (text : List Char) :
    cut true text =
      ((cut false text).1 ++ (cut true (cut false text).2).1, (cut true (cut false text).2).2) := by
  have hlast := cut_eq_iff.1 (Prod.eta (cut true (cut false text).2)).symm
  exact cut_eq_iff.2 ⟨(cut_cuts false text).append hlast.1, hlast.2⟩

/-- Segments as tokens, from a position on. -/
def place : Position → List Segment → List Token
  | _, [] => []
  | p, s :: rest => ⟨s.kind, String.ofList s.chars, p⟩ :: place (p.advance s.chars) rest

theorem place_append (p : Position) (segments more : List Segment) :
    place p (segments ++ more) =
      place p segments ++ place (p.advance (segments.flatMap chars)) more := by
  induction segments generalizing p with
  | nil => rfl
  | cons s rest ih => simp [place, ih, Position.advance_append]

end Segment

/-! ## 2. Scanners -/

namespace Scanner

theorem foldl_add (segments : List Segment) (s : Scanner) :
    segments.foldl (fun s segment => s.add segment.kind (String.ofList segment.chars)) s =
      ⟨s.pending, s.pos.advance (segments.flatMap Segment.chars),
        s.tokens ++ (Segment.place s.pos segments).toArray⟩ := by
  induction segments generalizing s with
  | nil => simp [Segment.place]
  | cons x rest ih =>
    rw [List.foldl_cons, ih]
    simp [add, Segment.place, Position.advance_append]

/-- A scan moves the leading segments from the pending text to the tokens. -/
theorem scan_eq (s : Scanner) (complete : Bool) :
    s.scan complete =
      ⟨(Segment.cut complete s.pending).2,
        s.pos.advance ((Segment.cut complete s.pending).1.flatMap Segment.chars),
        s.tokens ++ (Segment.place s.pos (Segment.cut complete s.pending).1).toArray⟩ := by
  rw [scan]
  simp only [foldl_add]

/-- A scan of what has arrived takes nothing from the scan of the whole. -/
theorem finish_scan_false (s : Scanner) : (s.scan false).finish = s.finish := by
  simp only [finish, scan_eq, Segment.cut_false_true s.pending, Segment.place_append,
    List.flatMap_append, Position.advance_append, List.append_toArray, Array.append_assoc]

theorem result_eq (s : Scanner) :
    s.result = if (Segment.cut true s.pending).2.isEmpty then
        .ok (s.tokens.toList ++ Segment.place s.pos (Segment.cut true s.pending).1)
      else .error (.lexical (causeOf (Segment.cut true s.pending).2)
        (s.pos.advance ((Segment.cut true s.pending).1.flatMap Segment.chars))) := by
  simp only [result, fault?, finish, scan_eq]
  split <;> split <;> simp_all

end Scanner

/-! ## 3. Whole texts -/

/-- A text in one chunk has the tokens of the text. -/
theorem tokenizeChunks_singleton (text : String) : tokenizeChunks [text] = tokenize text := by
  simp only [tokenizeChunks, tokenize, List.foldl_cons, List.foldl_nil, Scanner.feed,
    Scanner.result, Scanner.finish_scan_false]
  rfl

theorem tokenize_eq (text : String) :
    tokenize text = if (Segment.cut true text.toList).2.isEmpty then
        .ok (Segment.place Position.start (Segment.cut true text.toList).1)
      else .error (.lexical (Scanner.causeOf (Segment.cut true text.toList).2)
        (Position.start.advance ((Segment.cut true text.toList).1.flatMap Segment.chars))) :=
  Scanner.result_eq (Scanner.start text)

/-- A text has tokens exactly where it is cut to its end. -/
theorem tokenize_eq_ok_iff {text : String} {tokens : List Token} :
    tokenize text = .ok tokens ↔
      ∃ segments, Cuts text.toList segments [] ∧ tokens = Segment.place Position.start segments := by
  rw [tokenize_eq]
  constructor
  · intro h
    split at h
    · next hempty =>
      refine ⟨_, ?_, (Except.ok.inj h).symm⟩
      have hcuts := Segment.cut_cuts true text.toList
      rwa [List.isEmpty_iff.1 hempty] at hcuts
    · cases h
  · rintro ⟨segments, hcuts, rfl⟩
    rw [Segment.cut_eq_iff.2 ⟨hcuts, stuck_nil⟩]
    rfl

/-- The lexer gives lexemes. -/
theorem isLexeme_of_tokenize {source : String} {raw : List Token} (h : tokenize source = .ok raw) :
    ∀ t ∈ raw, Lexeme.IsLexeme t.kind t.text.toList := by
  obtain ⟨segments, hcuts, rfl⟩ := tokenize_eq_ok_iff.1 h
  have hlex := hcuts.isLexeme
  clear hcuts h
  generalize Position.start = p
  induction segments generalizing p with
  | nil => simp [Segment.place]
  | cons s rest ih =>
    obtain ⟨hs, hrest⟩ := List.forall_mem_cons.1 hlex
    rw [Segment.place, List.forall_mem_cons]
    exact ⟨by rwa [String.toList_ofList], ih hrest _⟩

end LuaLayout
