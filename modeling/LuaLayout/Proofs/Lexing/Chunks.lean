/-
LuaLayout.Proofs.Lexing.Chunks — where a text is cut makes no difference.

A scanner that has received a text piece by piece holds what the scanner of the
whole text would hold: its tokens are the leading tokens of the whole, and what
is pending is what they leave. `Scanner.Holds` says that, and that a character
which halts every class stands behind the tokens, so that text to come cannot
change them. After chunks alone that character is a line feed. After a fault it
is the opener that was never closed: a long bracket or a quote.

A scanner that received nothing but chunks has made all the tokens that a line
feed stands behind, and no other: it is the scanner of the whole text after one
scan of what is settled.
-/
import LuaLayout.Format
import LuaLayout.Proofs.Lexing.Lossless
import LuaLayout.Proofs.Lexing.Steady

namespace LuaLayout

/-! ## 1. Segments of a text that goes on -/

section

variable {text rest body r : List Char} {segments : List Segment} {kind : TokenKind}

theorem Cuts.subset_of_mem {c : Char} (h : Cuts text segments rest) (hc : c ∈ rest) : c ∈ text := by
  rw [← h.chars_append]
  exact List.mem_append_right _ hc

/-- Segments that a halting character stands behind are cut off from every text
that goes on. -/
theorem Cuts.followed {c : Char} (h : Cuts text segments rest) (hmem : c ∈ rest)
    (hc : Lexeme.Halts c) (more : List Char) : Cuts (text ++ more) segments (rest ++ more) := by
  induction h with
  | nil text => exact .nil _
  | cons hfirst hlater ih =>
    exact .cons (Lexeme.first?_followed more hfirst (hlater.subset_of_mem hmem) hc) (ih hmem)

/-- An opener that is never closed holds a character that halts. -/
theorem Unclosed.halts {cause : LexicalCause} (h : Unclosed cause text) :
    ∃ c ∈ text, Lexeme.Halts c := by
  cases cause with
  | unfinishedComment =>
    obtain ⟨level, body, rfl, -⟩ := h
    exact ⟨'[', by simp [Lexeme.longOpener], by decide⟩
  | unfinishedLongString =>
    obtain ⟨level, body, rfl, -⟩ := h
    exact ⟨'[', by simp [Lexeme.longOpener], by decide⟩
  | unfinishedString =>
    obtain ⟨quote, body, hquote, rfl, -⟩ := h
    simp only [List.mem_cons, List.not_mem_nil, or_false] at hquote
    rcases hquote with rfl | rfl
    · exact ⟨'"', by simp, by decide⟩
    · exact ⟨'\'', by simp, by decide⟩
  | invalidCharacters => exact h.elim

/-- What a completed scan is stuck at holds a character that halts. -/
theorem Stuck.halts (h : Stuck text) (hne : text ≠ []) : ∃ c ∈ text, Lexeme.Halts c := by
  obtain ⟨cause, hcause⟩ := (stuck_iff.1 h).resolve_left hne
  exact hcause.halts

namespace Segment

theorem isSettled_false_iff : isSettled false rest = true ↔ '\n' ∈ rest := by
  simp [isSettled]

/-- A cut of what is settled ends before a line feed, if it cuts off anything. -/
theorem cut_false_halts (text : List Char) :
    (cut false text).1 = [] ∨ '\n' ∈ (cut false text).2 := by
  induction hn : text.length using Nat.strongRecOn generalizing text with
  | ind n ih =>
    rw [cut_eq]
    split
    · next kind b r h =>
      split
      · next hsettled =>
        have hlt := Lexeme.first?_rest_lt h
        rcases ih r.length (by omega) r rfl with hnil | hmem
        · have hrest : (cut false r).2 = r := by
            have happend := cut_append false r
            rwa [hnil] at happend
          exact .inr (by rw [hrest]; exact isSettled_false_iff.1 hsettled)
        · exact .inr hmem
      · exact .inl rfl
    · exact .inl rfl

/-- What is settled may be cut off before the rest of the text has come. -/
theorem cut_false_append (text more : List Char) :
    cut false (text ++ more) =
      ((cut false text).1 ++ (cut false ((cut false text).2 ++ more)).1,
        (cut false ((cut false text).2 ++ more)).2) := by
  induction hn : text.length using Nat.strongRecOn generalizing text with
  | ind n ih =>
    cases hfirst : Lexeme.first? text with
    | none => simp [cut_eq false text, hfirst]
    | some found =>
      obtain ⟨kind, reading⟩ := found
      cases reading with
      | unfinished => simp [cut_eq false text, hfirst]
      | found b r =>
        cases hsettled : isSettled false r with
        | false => simp [cut_eq false text, hfirst, hsettled]
        | true =>
          have hline := isSettled_false_iff.1 hsettled
          have hmore : isSettled false (r ++ more) = true :=
            isSettled_false_iff.2 (List.mem_append_left _ hline)
          have hlt := Lexeme.first?_rest_lt hfirst
          rw [cut_eq false (text ++ more), Lexeme.first?_followed more hfirst hline (by decide)]
          simp only [hmore, if_true, ih r.length (by omega) r rfl]
          simp [cut_eq false text, hfirst, hsettled]

end Segment

end

/-! ## 2. Scanners that wait for more -/

/-- What happens to a scanner while its text is coming. -/
inductive Arrival
  /-- More of the text. -/
  | chunk (text : String)
  /-- The text is taken to be complete, and the scan ends in a fault. -/
  | fault
  deriving DecidableEq, Repr

namespace Arrival

/-- The text that an arrival brings. -/
def text : Arrival → String
  | chunk text => text
  | fault => ""

/-- The text that arrivals bring. -/
def textOf (arrivals : List Arrival) : String := String.join (arrivals.map text)

end Arrival

namespace Scanner

/-- The scanner after an arrival. A scan that ends without a fault is none. -/
def receive (s : Scanner) : Arrival → Option Scanner
  | .chunk text => some (s.feed text)
  | .fault => if s.finish.fault?.isSome then some s.finish else none

/-- The scanner after arrivals in order. -/
def receiveAll (s : Scanner) (arrivals : List Arrival) : Option Scanner := arrivals.foldlM receive s

/-- The scanner has received the text: its tokens are cut off the text, and no
text to come can change them. -/
structure Holds (s : Scanner) (text : List Char) (segments : List Segment) : Prop where
  cuts : Cuts text segments s.pending
  steady : segments = [] ∨ ∃ c ∈ s.pending, Lexeme.Halts c
  pos : s.pos = Position.start.advance (segments.flatMap Segment.chars)
  tokens : s.tokens.toList = Segment.place Position.start segments

namespace Holds

variable {s t : Scanner} {text : List Char} {segments : List Segment}

theorem start (init : String) : (Scanner.start init).Holds init.toList [] :=
  ⟨.nil _, .inl rfl, rfl, rfl⟩

/-- More text is pending. -/
theorem grow (h : s.Holds text segments) (more : List Char) :
    Holds { s with pending := s.pending ++ more } (text ++ more) segments := by
  refine ⟨?_, ?_, h.pos, h.tokens⟩
  · rcases h.steady with rfl | ⟨c, hmem, hc⟩
    · cases h.cuts
      exact .nil _
    · exact h.cuts.followed hmem hc more
  · rcases h.steady with hnil | ⟨c, hmem, hc⟩
    · exact .inl hnil
    · exact .inr ⟨c, List.mem_append_left _ hmem, hc⟩

/-- A scan that leaves a halting character, or cuts off nothing. -/
theorem scan (h : s.Holds text segments) (complete : Bool)
    (hsteady : (Segment.cut complete s.pending).1 = [] ∨
      ∃ c ∈ (Segment.cut complete s.pending).2, Lexeme.Halts c) :
    (s.scan complete).Holds text (segments ++ (Segment.cut complete s.pending).1) := by
  have hcuts := Segment.cut_cuts complete s.pending
  rw [scan_eq]
  refine ⟨h.cuts.append hcuts, ?_, ?_, ?_⟩
  · rcases hsteady with hnil | hc
    · have hrest : (Segment.cut complete s.pending).2 = s.pending := by
        have happend := Segment.cut_append complete s.pending
        rwa [hnil] at happend
      simp only [hnil, List.append_nil, hrest]
      exact h.steady
    · exact .inr hc
  · rw [h.pos, List.flatMap_append, Position.advance_append]
  · rw [Array.toList_append, h.tokens, h.pos, Segment.place_append]

/-- An arrival keeps the tokens and may add some. -/
theorem receive {arrival : Arrival} (h : s.Holds text segments) (hs : s.receive arrival = some t) :
    ∃ more, t.Holds (text ++ arrival.text.toList) (segments ++ more) := by
  cases arrival with
  | chunk chunk =>
    obtain rfl := Option.some.inj hs
    refine ⟨_, (h.grow chunk.toList).scan false ?_⟩
    rcases Segment.cut_false_halts (s.pending ++ chunk.toList) with hnil | hline
    · exact .inl hnil
    · exact .inr ⟨'\n', hline, by decide⟩
  | fault =>
    simp only [Scanner.receive] at hs
    split at hs
    · next hfault =>
      obtain rfl := Option.some.inj hs
      have hpending : (Segment.cut true s.pending).2 ≠ [] := by
        intro hnil
        rw [finish, scan_eq] at hfault
        simp [fault?, hnil] at hfault
      have hstuck := (Segment.cut_eq_iff.1 (Prod.eta (Segment.cut true s.pending)).symm).2
      refine ⟨(Segment.cut true s.pending).1, ?_⟩
      rw [Arrival.text, String.toList_empty, List.append_nil]
      exact h.scan true (.inr (hstuck.halts hpending))
    · cases hs

theorem receiveAll {arrivals : List Arrival} (h : s.Holds text segments)
    (hs : s.receiveAll arrivals = some t) :
    ∃ more, t.Holds (text ++ (Arrival.textOf arrivals).toList) (segments ++ more) := by
  induction arrivals generalizing s text segments with
  | nil =>
    obtain rfl := Option.some.inj hs
    exact ⟨[], by simpa [Arrival.textOf] using h⟩
  | cons arrival rest ih =>
    rw [Scanner.receiveAll, List.foldlM_cons] at hs
    obtain ⟨u, hu, hrest⟩ := Option.bind_eq_some_iff.1 hs
    obtain ⟨more, hheld⟩ := h.receive hu
    obtain ⟨later, hall⟩ := ih hheld hrest
    refine ⟨more ++ later, ?_⟩
    rw [List.append_assoc, List.append_assoc] at hall
    simpa [Arrival.textOf] using hall

/-- The tokens of a completed text are those of the whole. -/
theorem result_eq (h : s.Holds text segments) : s.result = tokenize (String.ofList text) := by
  have hlast := Segment.cut_eq_iff.1 (Prod.eta (Segment.cut true s.pending)).symm
  have hwhole : Segment.cut true text = (segments ++ (Segment.cut true s.pending).1,
      (Segment.cut true s.pending).2) :=
    Segment.cut_eq_iff.2 ⟨h.cuts.append hlast.1, hlast.2⟩
  rw [Scanner.result_eq, tokenize_eq, String.toList_ofList, hwhole, h.tokens, h.pos]
  simp only [Segment.place_append, List.flatMap_append, Position.advance_append]

end Holds

/-! ## 3. Chunks alone -/

/-- Scanners that received the same text in chunks are the same. -/
theorem foldl_feed (init : String) {chunks : List String} (h : chunks ≠ []) :
    chunks.foldl feed (start init) = (start (init ++ String.join chunks)).scan false := by
  have hfeed : ∀ (text : String) (chunk : String),
      ((start text).scan false).feed chunk = (start (text ++ chunk)).scan false := by
    intro text chunk
    simp only [feed, scan_eq, start, String.toList_append,
      Segment.cut_false_append text.toList chunk.toList, Segment.place_append, List.flatMap_append,
      Position.advance_append, List.append_toArray, List.append_assoc]
  have hmore : ∀ (chunks : List String) (text : String),
      chunks.foldl feed ((start text).scan false) =
        (start (text ++ String.join chunks)).scan false := by
    intro chunks
    induction chunks with
    | nil => simp
    | cons chunk rest ih =>
      intro text
      rw [List.foldl_cons, hfeed, ih]
      simp [String.append_assoc]
  obtain ⟨chunk, rest, rfl⟩ := List.exists_cons_of_ne_nil h
  have hfirst : (start init).feed chunk = (start (init ++ chunk)).scan false := by
    simp [feed, start]
  rw [List.foldl_cons, hfirst, hmore]
  simp [String.append_assoc]

end Scanner

/-- The index of the last line feed, or a negative number if there is none. -/
def lastLineFeed : List Char → Int
  | [] => -1
  | c :: rest =>
    if 0 ≤ lastLineFeed rest then lastLineFeed rest + 1 else if c = '\n' then 0 else -1

/-- A line feed stands at or behind an index. -/
theorem le_lastLineFeed_iff {n : Nat} {text : List Char} :
    (n : Int) ≤ lastLineFeed text ↔ '\n' ∈ text.drop n := by
  induction text generalizing n with
  | nil =>
    simp only [lastLineFeed, List.drop_nil, List.not_mem_nil, iff_false]
    omega
  | cons c rest ih =>
    have hsome : 0 ≤ lastLineFeed rest ↔ '\n' ∈ rest := by simpa using ih (n := 0)
    unfold lastLineFeed
    cases n with
    | zero =>
      by_cases hrest : '\n' ∈ rest
      · rw [if_pos (hsome.2 hrest)]
        have hle := hsome.2 hrest
        simp [hrest]
        omega
      · rw [if_neg (fun hle => hrest (hsome.1 hle))]
        by_cases hc : c = '\n'
        · simp [hc]
        · simp [hc, hrest, Ne.symm hc]
    | succ n =>
      rw [List.drop_succ_cons, ← ih]
      by_cases hle : 0 ≤ lastLineFeed rest
      · rw [if_pos hle]
        omega
      · rw [if_neg hle]
        split <;> omega

/-- The longest leading run of tokens that end at or before an index, when the
first one begins at an offset. -/
def endingBy (limit : Int) : Nat → List Token → List Token
  | _, [] => []
  | offset, t :: rest =>
    if ((offset + t.text.length : Nat) : Int) ≤ limit then
      t :: endingBy limit (offset + t.text.length) rest
    else []

/-- The segments that are settled are those that end before the last line feed. -/
theorem endingBy_place (before text : List Char) (p : Position) :
    endingBy (lastLineFeed (before ++ text)) before.length
        (Segment.place p (Segment.cut true text).1) =
      Segment.place p (Segment.cut false text).1 := by
  induction hn : text.length using Nat.strongRecOn generalizing before text p with
  | ind n ih =>
    rw [Segment.cut_eq true text, Segment.cut_eq false text]
    cases hfirst : Lexeme.first? text with
    | none => rfl
    | some found =>
      obtain ⟨kind, reading⟩ := found
      cases reading with
      | unfinished => rfl
      | found b r =>
        have hsplit : b ++ r = text := (Lexeme.first?_of hfirst).2
        have hlt := Lexeme.first?_rest_lt hfirst
        have hlength : before.length + (String.ofList b).length = (before ++ b).length := by
          rw [← String.length_toList, String.toList_ofList, List.length_append]
        have hdrop : (before ++ text).drop (before ++ b).length = r := by
          rw [← hsplit, ← List.append_assoc, List.drop_left]
        have hwhole : before ++ text = before ++ b ++ r := by rw [← hsplit, List.append_assoc]
        simp only [Segment.isSettled, Bool.true_or, if_true, Segment.place, endingBy, hlength,
          le_lastLineFeed_iff, hdrop, Bool.false_or, List.contains_iff_mem]
        by_cases hline : '\n' ∈ r
        · rw [if_pos hline, if_pos hline, hwhole, ih r.length (by omega) (before ++ b) r _ rfl]
          rfl
        · rw [if_neg hline, if_neg hline]
          rfl

/-! ## 4. The whole and its chunks -/

/-- A text that arrives in chunks is formatted like the whole. -/
theorem formatChunks_eq (version : Version) (chunks : List String) :
    formatChunks version chunks = format version (String.join chunks) := by
  have htokens : tokenizeChunks chunks = tokenize (String.join chunks) := by
    have hreceive : (Scanner.start "").receiveAll (chunks.map .chunk) =
        some (chunks.foldl Scanner.feed (Scanner.start "")) := by
      generalize Scanner.start "" = s
      induction chunks generalizing s with
      | nil => rfl
      | cons chunk rest ih => exact ih (s.feed chunk)
    obtain ⟨more, hheld⟩ := (Scanner.Holds.start "").receiveAll hreceive
    have htext : Arrival.textOf (chunks.map .chunk) = String.join chunks := by
      rw [Arrival.textOf, List.map_map]
      congr 1
      exact List.map_id'' (fun _ => rfl) chunks
    rw [tokenizeChunks, hheld.result_eq, htext, String.toList_empty, List.nil_append,
      String.ofList_toList]
  rw [format, formatChunks, formatChunks, prepare, prepare, htokens, tokenizeChunks_singleton]

/-- However a text arrives, and whatever faults it ran into while it was not yet
complete, its tokens are those of the whole, and it is formatted like the whole.
After chunks alone there are the tokens that end before the last line feed, and
no token is ever taken back. -/
theorem result_receiveAll :
    (∀ init arrivals s, (Scanner.start init).receiveAll arrivals = some s →
      s.result = tokenize (init ++ Arrival.textOf arrivals)) ∧
    (∀ version chunks, formatChunks version chunks = format version (String.join chunks)) ∧
    (∀ init chunks, chunks ≠ [] →
      (chunks.foldl Scanner.feed (Scanner.start init)).tokens.toList =
        endingBy (lastLineFeed (init ++ String.join chunks).toList) 0
          (Scanner.start (init ++ String.join chunks)).finish.tokens.toList) ∧
    ∀ init arrivals later s t, (Scanner.start init).receiveAll arrivals = some s →
      s.receiveAll later = some t →
      s.tokens.toList <+: t.tokens.toList ∧ t.tokens.toList <+: t.finish.tokens.toList := by
  refine ⟨?_, formatChunks_eq, ?_, ?_⟩
  · intro init arrivals s hs
    obtain ⟨more, hheld⟩ := (Scanner.Holds.start init).receiveAll hs
    rw [hheld.result_eq]
    simp
  · intro init chunks hne
    have htokens : ∀ complete, ((Scanner.start (init ++ String.join chunks)).scan complete).tokens.toList
        = Segment.place Position.start
          (Segment.cut complete (init ++ String.join chunks).toList).1 := by
      intro complete
      rw [Scanner.scan_eq]
      simp [Scanner.start]
    rw [Scanner.foldl_feed init hne, Scanner.finish, htokens, htokens]
    exact (endingBy_place [] _ _).symm
  · intro init arrivals later s t hs ht
    obtain ⟨more, hheld⟩ := (Scanner.Holds.start init).receiveAll hs
    obtain ⟨added, hlater⟩ := hheld.receiveAll ht
    simp only [List.nil_append] at hheld hlater
    refine ⟨?_, ?_⟩
    · rw [hheld.tokens, hlater.tokens, Segment.place_append]
      exact List.prefix_append _ _
    · rw [Scanner.finish, Scanner.scan_eq, Array.toList_append]
      exact List.prefix_append _ _

/-- A long string in three chunks, with a fault before the last of them. After two
chunks there are the tokens of the first line up to its line feed. -/
theorem result_receiveAll_longString :
    ∃ s t, (Scanner.start "").receiveAll [.chunk "x = 1\n[", .chunk "[y"] = some s ∧
      s.receiveAll [.fault, .chunk "]]"] = some t ∧
      (Scanner.start "").receiveAll
        [.chunk "x = 1\n[", .chunk "[y", .fault, .chunk "]]"] = some t ∧
      ["x = 1\n[", "[y"] ≠ [] ∧ s = ["x = 1\n[", "[y"].foldl Scanner.feed (Scanner.start "") ∧
      s.tokens.toList = [⟨.name, "x", ⟨1, 1⟩⟩, ⟨.whitespace, " ", ⟨1, 2⟩⟩,
        ⟨.operator, "=", ⟨1, 3⟩⟩, ⟨.whitespace, " ", ⟨1, 4⟩⟩, ⟨.number, "1", ⟨1, 5⟩⟩] ∧
      s.tokens.toList = endingBy (lastLineFeed ("" ++ String.join ["x = 1\n[", "[y"]).toList) 0
        (Scanner.start ("" ++ String.join ["x = 1\n[", "[y"])).finish.tokens.toList ∧
      (s.tokens.toList <+: t.tokens.toList ∧ t.tokens.toList <+: t.finish.tokens.toList) ∧
      t.result = tokenize ("" ++ Arrival.textOf
        [.chunk "x = 1\n[", .chunk "[y", .fault, .chunk "]]"]) ∧
      t.result = .ok [⟨.name, "x", ⟨1, 1⟩⟩, ⟨.whitespace, " ", ⟨1, 2⟩⟩,
        ⟨.operator, "=", ⟨1, 3⟩⟩, ⟨.whitespace, " ", ⟨1, 4⟩⟩, ⟨.number, "1", ⟨1, 5⟩⟩,
        ⟨.whitespace, "\n", ⟨1, 6⟩⟩, ⟨.blockQuote, "[[y]]", ⟨2, 1⟩⟩] := by
  have hs : (Scanner.start "").receiveAll [.chunk "x = 1\n[", .chunk "[y"] =
      some (["x = 1\n[", "[y"].foldl Scanner.feed (Scanner.start "")) := rfl
  have hsome : ((["x = 1\n[", "[y"].foldl Scanner.feed (Scanner.start "")).receiveAll
      [.fault, .chunk "]]"]).isSome = true := by decide +kernel
  obtain ⟨t, ht⟩ := Option.isSome_iff_exists.1 hsome
  have hall : (Scanner.start "").receiveAll
      [.chunk "x = 1\n[", .chunk "[y", .fault, .chunk "]]"] = some t := ht
  have hresult := result_receiveAll.1 _ _ t hall
  refine ⟨_, t, hs, ht, hall, by decide, rfl, by decide +kernel,
    result_receiveAll.2.2.1 _ _ (by decide), result_receiveAll.2.2.2 _ _ _ _ t hs ht, hresult, ?_⟩
  rw [hresult]
  decide +kernel

end LuaLayout
