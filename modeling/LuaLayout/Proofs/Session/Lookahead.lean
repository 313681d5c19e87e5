/-
LuaLayout.Proofs.Session.Lookahead — what can be seen ahead is what comes.

Looking ahead goes over the tokens from the position on, passes comments by, and
counts an offset down at all others. Taking a leaf passes the comments after its
token at once. The two agree because a session rests on a token that is no comment:
an offset away is the token that comes after as many leaves have been taken.
-/
import LuaLayout.Proofs.Session.Cursor

namespace LuaLayout

/-! ## 1. Looking over tokens -/

/-- The token at which the offset has been counted down to zero. Comments do not count. -/
def scan : Int → List Token → Option Token
  | _, [] => none
  | offset, t :: rest =>
    if t.kind = .comment then scan offset rest
    else if offset = 0 then some t
    else scan (offset - 1) rest

/-- A comment is passed by. -/
theorem scan_comment {t : Token} (ht : t.kind = .comment) (offset : Int) (rest : List Token) :
    scan offset (t :: rest) = scan offset rest := by
  rw [scan, if_pos ht]

theorem scan_natCast (offset : Nat) (tokens : List Token) :
    scan offset tokens = (tokens.filter (!Leaf.isComment ·))[offset]? := by
  induction tokens generalizing offset with
  | nil => rfl
  | cons t rest ih =>
    by_cases ht : t.kind = .comment
    · rw [scan_comment ht, ih, List.filter_cons_of_neg (by simp [Leaf.isComment, ht])]
    · rw [scan, if_neg ht, List.filter_cons_of_pos (by simp [Leaf.isComment, ht])]
      cases offset with
      | zero => rfl
      | succ k =>
        rw [if_neg (by omega), List.getElem?_cons_succ, ← ih]
        congr 1
        omega

/-- A negative offset is never counted down to zero. -/
theorem scan_of_neg {offset : Int} (h : offset < 0) (tokens : List Token) :
    scan offset tokens = none := by
  induction tokens generalizing offset with
  | nil => rfl
  | cons t rest ih =>
    by_cases ht : t.kind = .comment
    · rw [scan_comment ht, ih h]
    · rw [scan, if_neg ht, if_neg (by omega), ih (by omega)]

/-! ## 2. Taking leaves -/

namespace Session

variable {style : Style} {tokens : List Token} {s t : Session}

/-- The session after as many requests for the next token. -/
def skip : Nat → Session → Except Fault Session
  | 0, s => .ok s
  | k + 1, s =>
    match s.perform .next with
    | .ok (_, t) => skip k t
    | .error fault => .error fault

theorem perform_next_nil (h : s.ahead = []) :
    s.perform .next = .error (s.complaint .unexpectedEnd none) := by
  obtain ⟨style, tokens, ahead, page⟩ := s
  obtain rfl : ahead = [] := h
  rfl

theorem perform_next_cons {l : Leaf} {rest : List Leaf} (h : s.ahead = l :: rest) :
    s.perform .next =
      .ok (.token l.token, { s with ahead := rest, page := s.page.queueAll l.remarks }) := by
  obtain ⟨style, tokens, ahead, page⟩ := s
  obtain rfl : ahead = l :: rest := h
  rfl

theorem peek_nil (h : s.ahead = []) (k : Nat) : s.peek k = none := by
  show Parser.tokenAt k s.ahead = none
  rw [h]
  rfl

theorem peek_succ {l : Leaf} {rest : List Leaf} (h : s.ahead = l :: rest) (k : Nat) (page : Page) :
    s.peek (k + 1 : Nat) = ({ s with ahead := rest, page := page } : Session).peek k := by
  show Parser.tokenAt (k + 1) s.ahead = Parser.tokenAt k rest
  rw [h]
  rfl

theorem current_cons {l : Leaf} {rest : List Leaf} (h : s.ahead = l :: rest) :
    s.current = some l.token := by
  show Parser.tokenAt 0 s.ahead = some l.token
  rw [h]
  rfl

/-- The token a number of leaves ahead is the next one once they have been taken. -/
theorem peek_eq_some_iff (k : Nat) (s : Session) (t : Token) :
    s.peek k = some t ↔ ∃ u, skip k s = .ok u ∧ u.current = some t := by
  induction k generalizing s with
  | zero => exact ⟨fun h => ⟨s, rfl, h⟩, fun ⟨u, hu, h⟩ => by cases hu; exact h⟩
  | succ k ih =>
    cases hahead : s.ahead with
    | nil =>
      rw [peek_nil hahead, skip, perform_next_nil hahead]
      exact ⟨nofun, fun ⟨u, hu, _⟩ => nomatch hu⟩
    | cons l rest =>
      rw [peek_succ hahead, skip, perform_next_cons hahead]
      exact ih _

/-- The next request for a token gives the one that is next. -/
theorem current_eq_some_iff (s : Session) (t : Token) :
    s.current = some t ↔ ∃ u, s.perform .next = .ok (.token t, u) := by
  cases hahead : s.ahead with
  | nil =>
    have hcurrent : s.current = none := peek_nil hahead 0
    rw [hcurrent, perform_next_nil hahead]
    exact ⟨nofun, fun ⟨u, hu⟩ => nomatch hu⟩
  | cons l rest =>
    rw [current_cons hahead, perform_next_cons hahead]
    exact ⟨fun h => ⟨_, by cases h; rfl⟩, fun ⟨u, hu⟩ => by cases hu; rfl⟩

/-- The text tested for is that of the token which is taken after as many others. -/
theorem check_iff (text : String) (k : Nat) (s : Session) :
    s.check text k = true ↔
      ∃ u v t, skip k s = .ok u ∧ u.perform .next = .ok (.token t, v) ∧ t.text = text := by
  have hcheck : s.check text k = true ↔ ∃ t, s.peek k = some t ∧ t.text = text := by
    simp [check, Option.any_eq_true]
  rw [hcheck]
  constructor
  · rintro ⟨t, hpeek, htext⟩
    obtain ⟨u, hskip, hcurrent⟩ := (peek_eq_some_iff k s t).1 hpeek
    obtain ⟨v, hnext⟩ := (current_eq_some_iff u t).1 hcurrent
    exact ⟨u, v, t, hskip, hnext, htext⟩
  · rintro ⟨u, v, t, hskip, hnext, htext⟩
    have hcurrent := (current_eq_some_iff u t).2 ⟨v, hnext⟩
    exact ⟨t, (peek_eq_some_iff k s t).2 ⟨u, hskip, hcurrent⟩, htext⟩

/-- Where nothing is seen, the leaves run out on the way or have run out there. -/
theorem skip_of_peek_eq_none {k : Nat} (h : s.peek k = none) :
    (∃ fault, skip k s = .error fault) ∨ ∃ u, skip k s = .ok u ∧ u.current = none := by
  cases hskip : skip k s with
  | error fault => exact .inl ⟨fault, rfl⟩
  | ok u =>
    refine .inr ⟨u, rfl, Option.eq_none_iff_forall_ne_some.2 fun t hcurrent => ?_⟩
    have hpeek := (peek_eq_some_iff k s t).2 ⟨u, hskip, hcurrent⟩
    rw [h] at hpeek
    cases hpeek

namespace Reached

theorem skip {k : Nat} (h : Reached style tokens s) (hskip : Session.skip k s = .ok t) :
    Reached style tokens t := by
  induction k generalizing s with
  | zero => cases hskip; exact h
  | succ k ih =>
    rw [Session.skip] at hskip
    split at hskip
    next reply u hnext => exact ih (.request h hnext) hskip
    next => cases hskip

/-- What is seen ahead is what the tokens from the position on show. -/
theorem peek_eq_scan (h : Reached style tokens s) (offset : Int) :
    s.peek offset = scan offset (tokens.drop s.position) := by
  cases offset with
  | ofNat k =>
    have htokens := Leaf.map_token_ofTokens (s.tokens.drop s.position)
    rw [h.rests.ahead] at htokens
    show (s.ahead[k]?).map (·.token) = _
    rw [← h.tokens_eq, Int.ofNat_eq_natCast, scan_natCast, ← htokens, List.getElem?_map]
  | negSucc k => exact (scan_of_neg (Int.negSucc_lt_zero k) _).symm

/-- Nothing is seen where no more tokens are left that are no comments. -/
theorem peek_eq_none_iff (h : Reached style tokens s) (k : Nat) :
    s.peek k = none ↔ ((tokens.drop s.position).filter (!Leaf.isComment ·)).length < k + 1 := by
  rw [h.peek_eq_scan, scan_natCast, List.getElem?_eq_none_iff, Nat.lt_succ_iff]

theorem current_eq (h : Reached style tokens s) : s.current = tokens[s.position]? := by
  rw [← h.tokens_eq]
  obtain ⟨hahead, hend⟩ | ⟨l, rest, hahead, htoken, -⟩ := h.rests.rest_cases
  · rw [hend, List.getElem?_length]
    exact peek_nil hahead 0
  · rw [current_cons hahead, htoken]

/-- In every session that is reached, looking ahead goes over the tokens from the position
on, and what it sees is what comes: the token an offset away is the next one after as many
requests for a token, and there is none exactly where too few are left; a test of its text
decides what the request after them gives. Nothing is seen behind. -/
theorem foresees (h : Reached style tokens s) :
    (∀ offset, s.peek offset = scan offset (tokens.drop s.position)) ∧
      s.current = tokens[s.position]? ∧
      (∀ k u, Session.skip k s = .ok u → u.current = tokens[u.position]?) ∧
      (∀ (k : Nat) t, s.peek k = some t ↔ ∃ u, Session.skip k s = .ok u ∧ u.current = some t) ∧
      (∀ k : Nat, s.peek k = none ↔
        ((tokens.drop s.position).filter (!Leaf.isComment ·)).length < k + 1) ∧
      (∀ k : Nat, s.peek k = none → (∃ fault, Session.skip k s = .error fault) ∨
        ∃ u, Session.skip k s = .ok u ∧ u.current = none) ∧
      (∀ offset < 0, s.peek offset = none) ∧
      ∀ text (k : Nat), s.check text k = true ↔
        ∃ u v t, Session.skip k s = .ok u ∧ u.perform .next = .ok (.token t, v) ∧
          t.text = text := by
  refine ⟨h.peek_eq_scan, h.current_eq, fun k u hskip => (h.skip hskip).current_eq,
    fun k t => peek_eq_some_iff k s t, h.peek_eq_none_iff, fun k => skip_of_peek_eq_none,
    fun offset hoffset => ?_, fun text k => check_iff text k s⟩
  rw [h.peek_eq_scan, scan_of_neg hoffset]

/-- A comment lies between a name and the bracket behind it; the bracket is seen all the
same, and nothing behind it. -/
theorem foresees_bracket :
    let tokens : List Token :=
      [⟨.name, "f", ⟨1, 1⟩⟩, ⟨.comment, "-- a", ⟨1, 3⟩⟩, ⟨.operator, "(", ⟨2, 1⟩⟩]
    (Session.start .program tokens).peek 1 = some ⟨.operator, "(", ⟨2, 1⟩⟩ ∧
      (Session.start .program tokens).peek 2 = none := by
  intro tokens
  have hforesees := foresees (.start : Reached .program tokens (Session.start .program tokens))
  refine ⟨?_, ?_⟩
  · rw [hforesees.1]
    rfl
  · exact (hforesees.2.2.2.2.1 2).2 (by decide)

end Reached

end Session

end LuaLayout
