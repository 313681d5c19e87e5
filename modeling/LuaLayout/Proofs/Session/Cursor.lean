/-
LuaLayout.Proofs.Session.Cursor — where a session stands between two requests.

A session is reached by requests that succeed, in any order. Each of them goes
through moves, as `result_answer` shows, so a session that is reached rests where
`Rests` says, and no comment is lost on the way or met twice. What happens within
a request that fails can be seen in the renderer alone: it goes forward like all
others, and an expectation that is not met goes nowhere.
-/
import LuaLayout.Proofs.Session.Answers

namespace LuaLayout

/-! ## 1. Requests that fail in place -/

namespace Renderer

variable {α β : Type}

/-- Where it fails, nothing has been taken or put down. -/
def FailsInPlace (w : Renderer α) : Prop :=
  ∀ s fault, (w.run s).value = .error fault → (w.run s).session = s

namespace FailsInPlace

theorem next : FailsInPlace next := by
  intro s fault hvalue
  cases hahead : s.ahead with
  | nil => simp only [Renderer.next, hahead]
  | cons l rest => simp only [Renderer.next, hahead, reduceCtorEq] at hvalue

theorem fail {what : Complaint} : FailsInPlace (Renderer.fail what : Renderer α) :=
  fun _ _ _ => rfl

theorem ite {c : Prop} [Decidable c] {w w' : Renderer α} (h : w.FailsInPlace)
    (h' : w'.FailsInPlace) : (if c then w else w').FailsInPlace := by
  split
  · exact h
  · exact h'

/-- Looking before is no move. -/
theorem askBind {f : Session → α} {g : α → Renderer β} (h : ∀ a, (g a).FailsInPlace) :
    (ask f >>= g).FailsInPlace :=
  fun s fault hvalue => h (f s) s fault hvalue

/-- Nothing fails after a value has been found. -/
theorem map {w : Renderer α} {f : α → β} (h : w.FailsInPlace) :
    (w >>= fun a => pure (f a)).FailsInPlace := by
  intro s fault hvalue
  cases hw : (w.run s).value with
  | error e =>
    have hsession := h s e hw
    simpa only [run_bind, Rendering.andThen, hw] using hsession
  | ok a =>
    simp only [run_bind, Rendering.andThen, hw] at hvalue
    cases hvalue

/-- What a request leaves where it fails is where it began. -/
theorem session_eq {s : Session} {request : Request} {fault : Fault}
    (h : (answer request).FailsInPlace) (hperform : s.perform request = .error fault) :
    ((answer request).run s).session = s := by
  refine h s fault ?_
  rw [← result_answer] at hperform
  unfold Rendering.result at hperform
  split at hperform
  next => cases hperform
  next hvalue => exact Except.error.inj hperform ▸ hvalue

theorem expect (text : String) : (expect text).FailsInPlace :=
  askBind fun _ => ite next fail

theorem expectName : expectName.FailsInPlace :=
  askBind fun _ => ite (map next) fail

end FailsInPlace

end Renderer

/-! ## 2. Sessions that are reached -/

namespace Session

variable {style : Style} {tokens : List Token} {s t : Session}

/-- The session comes from the start by requests that succeed. -/
inductive Reached (style : Style) (tokens : List Token) : Session → Prop
  | start : Reached style tokens (Session.start style tokens)
  | request {s t : Session} {request : Request} {reply : Reply} (h : Reached style tokens s)
      (hperform : s.perform request = .ok (reply, t)) : Reached style tokens t

/-- A request that succeeds is a sequence of moves. -/
theorem perform_moves {request : Request} {reply : Reply}
    (h : s.perform request = .ok (reply, t)) : s.Moves t := by
  have hmoves := ((Renderer.answer request).from_start s).moves
  rw [← Renderer.result_answer] at h
  unfold Rendering.result at h
  split at h
  next => obtain ⟨-, rfl⟩ := Prod.mk.inj (Except.ok.inj h); exact hmoves
  next => cases h

namespace Reached

theorem moves (h : Reached style tokens s) : (Session.start style tokens).Moves s := by
  induction h with
  | start => exact .refl
  | request _ hperform ih => exact ih.trans (perform_moves hperform)

theorem rests (h : Reached style tokens s) : s.Rests := h.moves.rests (.start style tokens)

theorem tokens_eq (h : Reached style tokens s) : s.tokens = tokens := h.moves.follows.tokens

/-- The end, or a token that is no comment. -/
theorem stands (h : Reached style tokens s) :
    s.position = tokens.length ∨ ∃ t, tokens[s.position]? = some t ∧ t.kind ≠ .comment := by
  rw [← h.tokens_eq]
  obtain ⟨-, hend⟩ | ⟨l, rest, -, htoken, hl⟩ := h.rests.rest_cases
  · exact .inl hend
  · exact .inr ⟨l.token, htoken, Leaf.isComment_eq_false_iff.1 hl.1⟩

/-- A session that is reached stands at the end or at a token that is no comment, and the
comments before it are, in order, those put down and those that wait. No request leads
back, whether it succeeds or fails, and an expectation that is not met leads nowhere and
puts nothing down. -/
theorem accounts (h : Reached style tokens s) :
    (s.position = tokens.length ∨ ∃ t, tokens[s.position]? = some t ∧ t.kind ≠ .comment) ∧
      ((tokens.take s.position).filter (·.kind == .comment)).map (·.text) =
        s.page.notes ++ s.page.waiting ∧
      (∀ request reply t, s.perform request = .ok (reply, t) → s.position ≤ t.position) ∧
      (∀ request, ((Renderer.answer request).run s).result = s.perform request ∧
        s.position ≤ ((Renderer.answer request).run s).session.position) ∧
      (∀ text fault, s.perform (.expect text) = .error fault →
        ((Renderer.answer (.expect text)).run s).session = s) ∧
      ∀ fault, s.perform .expectName = .error fault →
        ((Renderer.answer .expectName).run s).session = s := by
  refine ⟨h.stands, ?_, fun request reply t hperform => (perform_moves hperform).follows.position_le,
    fun request => ⟨Renderer.result_answer s request,
      ((Renderer.answer request).from_start s).moves.follows.position_le⟩,
    fun text fault hperform => ?_, fun fault hperform => ?_⟩
  · have hnotes := h.rests.notes
    rw [h.tokens_eq] at hnotes
    exact hnotes
  · have hfails : (Renderer.answer (.expect text)).FailsInPlace :=
      .askBind fun _ => .map (.expect text)
    exact hfails.session_eq hperform
  · have hfails : (Renderer.answer .expectName).FailsInPlace := .askBind fun _ => .map .expectName
    exact hfails.session_eq hperform

/-- A name between two comments. -/
def notedName : List Token :=
  [⟨.comment, "-- a", ⟨1, 1⟩⟩, ⟨.name, "x", ⟨2, 1⟩⟩, ⟨.comment, "-- b", ⟨2, 3⟩⟩]

/-- Once the name is taken, both comments wait. -/
theorem accounts_notedName :
    ∃ t, (Session.start .program notedName).perform .next =
        .ok (.token ⟨.name, "x", ⟨2, 1⟩⟩, t) ∧
      t.position = 3 ∧ ["-- a", "-- b"] = t.page.notes ++ t.page.waiting := by
  have hnext : ∃ t, (Session.start .program notedName).perform .next =
      .ok (.token ⟨.name, "x", ⟨2, 1⟩⟩, t) ∧ t.position = 3 := ⟨_, rfl, rfl⟩
  obtain ⟨t, hperform, hposition⟩ := hnext
  have haccounts := (accounts (.request .start hperform)).2.1
  rw [hposition] at haccounts
  exact ⟨t, hperform, hposition, haccounts⟩

end Reached

end Session

end LuaLayout
