/-
LuaLayout.Proofs.Session.Renderer — going through tokens with everything on record.

A session that is asked for a part of the grammar reads the whole part and lays it
out then, and one that fails is gone. A renderer does the two at once: it takes a
leaf, puts a word down and goes on, and where it fails it still tells where it
stands. It also keeps a record: where a method is entered and where it returns,
where each round of a loop begins and where a loop goes on, and within which calls.

By what it is built from, a renderer goes through nothing but moves of the session,
and its record speaks of no session but those that come after its start.
-/
import LuaLayout.Proofs.Session.Moves

namespace LuaLayout

/-! ## 1. Records -/

/-- What can be called. -/
inductive Method
  | format
  | block
  | statement
  | statementOf (form : StatementForm)
  | assignmentOrCall
  | localName
  | expression
  | expressions
  | operand
  | access
  | openIndex
  | parameters
  | body
  | table
  | field
  | closeBlock
  deriving DecidableEq, Repr

/-- A call, and the session in which it was made. -/
structure Call where
  method : Method
  entry : Session

/-- What the record tells of a moment. -/
inductive Occasion
  /-- The latest call begins. -/
  | entry
  /-- The latest call returns. -/
  | exit
  /-- A round of a loop begins. -/
  | round
  /-- A loop goes on after a round that began earlier. -/
  | again (began : Session)

/-- A moment of a renderer: the session there, and the calls under way, the latest first. -/
structure Event where
  occasion : Occasion
  session : Session
  calls : List Call

namespace Event

/-- The moment as it is told from outside a call. -/
def within (call : Call) (e : Event) : Event := { e with calls := e.calls ++ [call] }

/-- A round of a loop begins. -/
def beginsRound (e : Event) : Bool :=
  match e.occasion with
  | .round => true
  | _ => false

/-- Every session that the moment speaks of comes after the given one. -/
structure After (s : Session) (e : Event) : Prop where
  session : s.Follows e.session
  calls : ∀ call ∈ e.calls, s.Follows call.entry
  began : ∀ t, e.occasion = .again t → s.Follows t

/-- What comes after a session comes after all that it follows. -/
theorem After.trans {s t : Session} {e : Event} (he : e.After t) (h : s.Follows t) : e.After s :=
  ⟨h.trans he.session, fun call hcall => h.trans (he.calls call hcall),
    fun u hu => h.trans (he.began u hu)⟩

/-- Told from outside a call, a moment speaks of the session of the call as well. -/
theorem After.within {s : Session} {e : Event} (he : e.After s) (m : Method) :
    (e.within ⟨m, s⟩).After s := by
  refine ⟨he.session, fun call hcall => ?_, he.began⟩
  obtain hcall | hcall := List.mem_append.1 hcall
  · exact he.calls call hcall
  · rw [List.mem_singleton.1 hcall]
    exact .refl s

end Event

/-- How a renderer ends: with a value or a fault, somewhere, and after so many moments. -/
structure Rendering (α : Type) where
  value : Except Fault α
  session : Session
  events : List Event

namespace Rendering

variable {α β : Type}

/-- Goes on where a rendering has ended well. -/
def andThen (o : Rendering α) (f : α → Session → Rendering β) : Rendering β :=
  match o.value with
  | .ok a =>
    let later := f a o.session
    ⟨later.value, later.session, o.events ++ later.events⟩
  | .error fault => ⟨.error fault, o.session, o.events⟩

/-- What is left where the session of a failure is forgotten. -/
def result (o : Rendering α) : Except Fault (α × Session) :=
  match o.value with
  | .ok a => .ok (a, o.session)
  | .error fault => .error fault

/-- The moment at which a call returns, if it does. -/
def exits (o : Rendering α) : List Event :=
  match o.value with
  | .ok _ => [⟨.exit, o.session, []⟩]
  | .error _ => []

theorem of_mem_exits {o : Rendering α} {e : Event} (h : e ∈ o.exits) :
    ∃ a, o.value = .ok a ∧ e = ⟨.exit, o.session, []⟩ := by
  unfold exits at h
  split at h
  next a hvalue => exact ⟨a, hvalue, List.mem_singleton.1 h⟩
  next => cases h

/-- The moment at which a loop goes on after a round, if it does. -/
def goesOn {σ : Type} (began : Session) (o : Rendering (ForInStep σ)) : List Event :=
  match o.value with
  | .ok (.yield _) => [⟨.again began, o.session, []⟩]
  | _ => []

theorem of_mem_goesOn {σ : Type} {began : Session} {o : Rendering (ForInStep σ)} {e : Event}
    (h : e ∈ o.goesOn began) :
    ∃ y, o.value = .ok (.yield y) ∧ e = ⟨.again began, o.session, []⟩ := by
  unfold goesOn at h
  split at h
  next y hvalue => exact ⟨y, hvalue, List.mem_singleton.1 h⟩
  next => cases h

/-- How often a round of a loop begins. -/
def rounds (o : Rendering α) : Nat := o.events.countP Event.beginsRound

/-- The session is reached by moves, and the record speaks of nothing else. -/
structure From (s : Session) (o : Rendering α) : Prop where
  moves : s.Moves o.session
  events : ∀ e ∈ o.events, e.After s

/-- The second part is reached by moves from where the first one ends. -/
theorem From.andThen {s : Session} {o : Rendering α} {f : α → Session → Rendering β}
    (ho : o.From s) (hf : ∀ a t, (f a t).From t) : (o.andThen f).From s := by
  unfold Rendering.andThen
  cases o.value with
  | error fault => exact ⟨ho.moves, ho.events⟩
  | ok a =>
    have hlater := hf a o.session
    refine ⟨ho.moves.trans hlater.moves, fun e he => ?_⟩
    obtain he | he := List.mem_append.1 he
    · exact ho.events e he
    · exact (hlater.events e he).trans ho.moves.follows

end Rendering

/-! ## 2. Renderers -/

/-- A way through a session. -/
structure Renderer (α : Type) where
  run : Session → Rendering α
  from_start : ∀ s, (run s).From s

namespace Renderer

variable {α β σ : Type}

instance : Monad Renderer where
  pure a := ⟨fun s => ⟨.ok a, s, []⟩, fun _ => ⟨.refl, nofun⟩⟩
  bind w f := ⟨fun s => (w.run s).andThen fun a => (f a).run,
    fun s => (w.from_start s).andThen fun a => (f a).from_start⟩

/-- Goes nowhere, and tells something of the session. -/
def ask (f : Session → α) : Renderer α := ⟨fun s => ⟨.ok (f s), s, []⟩, fun _ => ⟨.refl, nofun⟩⟩

/-- Goes nowhere, and fails. -/
def stop (fault : Session → Fault) : Renderer α :=
  ⟨fun s => ⟨.error (fault s), s, []⟩, fun _ => ⟨.refl, nofun⟩⟩

/-! ## 3. Looking ahead and failing -/

/-- The next token. -/
def current : Renderer (Option Token) := ask Session.current

/-- The token a number of leaves ahead has the given text. -/
def check (text : String) (offset : Int) : Renderer Bool := ask (·.check text offset)

/-- The next token has the given text. -/
def sees (text : String) : Renderer Bool := check text 0

/-- Stops with a complaint near a token or the end of the input. -/
def failNear (what : Complaint) (near : Option Token) : Renderer α := stop (·.complaint what near)

/-- Stops with a complaint near the next token. -/
def fail (what : Complaint) : Renderer α := stop fun s => s.complaint what s.current

/-- Stops without a complaint about the text. -/
def refuse (cause : Refusal) : Renderer α := stop fun _ => .refused cause

/-! ## 4. Taking leaves -/

/-- Takes the next leaf: its comments wait from then on. -/
def next : Renderer Token where
  run s :=
    match s.ahead with
    | [] => ⟨.error (s.complaint .unexpectedEnd none), s, []⟩
    | l :: rest => ⟨.ok l.token, { s with ahead := rest, page := s.page.queueAll l.remarks }, []⟩
  from_start s := by
    split
    next => exact ⟨.refl, nofun⟩
    next l rest hahead => exact ⟨.single (.take hahead), nofun⟩

/-- Takes the next leaf, whose token must have the given text. -/
def expect (text : String) : Renderer Token := do
  if ← sees text then next else fail (.expected text)

/-- Takes the next leaf, whose token must be a name. -/
def expectName : Renderer String := do
  if (← current).any (·.kind == .name) then return (← next).text else fail .expectedName

/-! ## 5. Putting down -/

/-- Puts down what no comment comes with. -/
def lay (item : Item) (h : item.remarks = []) : Renderer Unit where
  run s := ⟨.ok (), { s with page := s.page.lay item }, []⟩
  from_start _ := ⟨.single (.lay h), nofun⟩

/-- Puts a text down. -/
def write (text : String) : Renderer Unit := lay (.word text []) rfl

/-- Puts a space down. -/
def space : Renderer Unit := lay .space rfl

/-- Puts a space down where a test holds. -/
def spaceWhere (test : Bool) : Renderer Unit := if test then space else pure ()

/-- Starts a line, after a blank one if asked to. -/
def lineBreak (indent noteIndent : Int) (blank : Bool) : Renderer Unit :=
  lay (.line indent noteIndent blank) rfl

/-- Puts the comments down that wait. -/
def flush (indent : Int) : Renderer Unit where
  run s := ⟨.ok (), { s with page := s.page.flush indent }, []⟩
  from_start _ := ⟨.single .flush, nofun⟩

/-- Puts texts down one after another. -/
def writeAll : List String → Renderer Unit
  | [] => pure ()
  | text :: rest => do
    write text
    writeAll rest

/-- Puts things down with commas between them. -/
def separated (put : α → Renderer Unit) : List α → Renderer Unit
  | [] => pure ()
  | [a] => put a
  | a :: rest => do
    put a
    write ","
    space
    separated put rest

/-! ## 6. Calls and loops -/

/-- Calls a method: the record tells that it is entered, what happens within it, and
that it returns, if it does. -/
def call (m : Method) (w : Renderer α) : Renderer α where
  run s :=
    let o := w.run s
    { o with events := (⟨.entry, s, []⟩ :: o.events ++ o.exits).map (Event.within ⟨m, s⟩) }
  from_start s := by
    have ho := w.from_start s
    refine ⟨ho.moves, List.forall_mem_map.2 fun e he => Event.After.within ?_ m⟩
    obtain he | he := List.mem_append.1 he
    · obtain rfl | he := List.mem_cons.1 he
      · exact ⟨.refl s, nofun, nofun⟩
      · exact ho.events e he
    · obtain ⟨a, -, rfl⟩ := Rendering.of_mem_exits he
      exact ⟨ho.moves.follows, nofun, nofun⟩

/-- One round of a loop: the record tells where it begins and, if the loop goes on,
where the next one does. -/
def lap (step : Renderer (ForInStep σ)) : Renderer (ForInStep σ) where
  run s :=
    let o := step.run s
    { o with events := ⟨.round, s, []⟩ :: o.events ++ o.goesOn s }
  from_start s := by
    have ho := step.from_start s
    refine ⟨ho.moves, fun e he => ?_⟩
    obtain he | he := List.mem_append.1 he
    · obtain rfl | he := List.mem_cons.1 he
      · exact ⟨.refl s, nofun, nofun⟩
      · exact ho.events e he
    · obtain ⟨y, -, rfl⟩ := Rendering.of_mem_goesOn he
      exact ⟨ho.moves.follows, nofun, fun t ht => by cases ht; exact .refl s⟩

/-- Rounds up to one that is the last; the loop may go on at most once for each leaf of a list. -/
def loopAlong (step : σ → Renderer (ForInStep σ)) : List Leaf → σ → Renderer σ
  | [], x => do
    match ← lap (step x) with
    | .done y => return y
    | .yield _ => refuse .tooDeep
  | _ :: bound, x => do
    match ← lap (step x) with
    | .done y => return y
    | .yield y => loopAlong step bound y

/-- Rounds up to one that is the last. A loop that goes on has taken a leaf, so the
leaves ahead bound the rounds. -/
def loop (step : σ → Renderer (ForInStep σ)) (x : σ) : Renderer σ := do
  loopAlong step (← ask Session.ahead) x

end Renderer

end LuaLayout
