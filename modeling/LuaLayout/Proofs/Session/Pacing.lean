/-
LuaLayout.Proofs.Session.Pacing — what every leaf pays for.

A renderer is paced where its record shows that it gets on. The calls under way
stand on ever lower levels: a level counts the leaves ahead first and the methods
that can be called before another leaf is taken second, so no method is met again
on the same leaves. And every leaf that is taken earns a credit of four, every round
of a loop costs one. A part that ends with more credit than it began with has taken
a leaf; a loop goes on only with what it takes to begin another round, so its
rounds cannot outnumber the leaves by more than the credit allows.

There is one rule here for each way of building a renderer.
-/
import LuaLayout.Proofs.Session.Cursor

namespace LuaLayout

/-- The fault is a complaint about the text. -/
def Fault.IsGrammar (fault : Fault) : Prop := ∃ what near pos, fault = .grammar what near pos

theorem Session.complaint_isGrammar (s : Session) (what : Complaint) (near : Option Token) :
    (s.complaint what near).IsGrammar := by
  cases near with
  | none => exact ⟨_, _, _, rfl⟩
  | some t => exact ⟨_, _, _, rfl⟩

/-! ## 1. Levels of calls -/

namespace Method

/-- How many calls can follow one another from here before a leaf is taken. -/
def rank : Method → Nat
  | format => 4
  | block | expressions | field => 3
  | statement | expression => 2
  | statementOf _ | assignmentOrCall | operand | body => 1
  | localName | access | openIndex | parameters | table | closeBlock => 0

/-- The methods that take a leaf whenever they return. -/
def advances : Method → Bool
  | format | block | openIndex => false
  | _ => true

/-- The methods that are not to be called where no token is left. -/
def needsToken : Method → Bool
  | statement | operand => true
  | _ => false

end Method

/-- The place of a call in the order of nesting: leaves ahead first, then the method. -/
def Call.level (call : Call) : Nat := 5 * call.entry.ahead.length + call.method.rank

/-- A moment that shows progress: each call on a lower level than the one it is made in
and all below a ceiling, a method that returns and a loop that goes on with fewer leaves
ahead, a method that needs a token with one ahead. -/
structure Event.Paced (ceiling : Nat) (e : Event) : Prop where
  nested : e.calls.Pairwise fun inner outer => inner.level < outer.level
  below : ∀ call ∈ e.calls, call.level < ceiling
  exits : e.occasion = .exit → ∃ call rest, e.calls = call :: rest ∧
    (call.method.advances = true → e.session.ahead.length < call.entry.ahead.length)
  goesOn : ∀ began, e.occasion = .again began → e.session.ahead.length < began.ahead.length
  enters : e.occasion = .entry → ∃ call rest, e.calls = call :: rest ∧
    (call.method.needsToken = true → e.session.current ≠ none)

namespace Event.Paced

variable {ceiling : Nat} {e : Event}

theorem mono {higher : Nat} (h : e.Paced ceiling) (hle : ceiling ≤ higher) : e.Paced higher :=
  { h with below := fun call hcall => (h.below call hcall).trans_le hle }

/-- The call in which the moment happened stands above all others. -/
theorem within {call : Call} (h : e.Paced call.level) (hlt : call.level < ceiling) :
    (e.within call).Paced ceiling where
  nested := by
    refine List.pairwise_append.2 ⟨h.nested, List.pairwise_singleton _ _, fun inner hinner outer houter => ?_⟩
    rw [List.mem_singleton.1 houter]
    exact h.below inner hinner
  below outer houter := by
    obtain houter | houter := List.mem_append.1 houter
    · exact (h.below outer houter).trans hlt
    · rw [List.mem_singleton.1 houter]
      exact hlt
  exits hexit := by
    obtain ⟨latest, rest, hcalls, hadvances⟩ := h.exits hexit
    exact ⟨latest, rest ++ [call], congrArg (· ++ [call]) hcalls, hadvances⟩
  goesOn := h.goesOn
  enters hentry := by
    obtain ⟨latest, rest, hcalls, htoken⟩ := h.enters hentry
    exact ⟨latest, rest ++ [call], congrArg (· ++ [call]) hcalls, htoken⟩

theorem round (s : Session) : (⟨.round, s, []⟩ : Event).Paced ceiling :=
  ⟨.nil, by simp, by simp, by simp, by simp⟩

theorem again {s began : Session} (h : s.ahead.length < began.ahead.length) :
    (⟨.again began, s, []⟩ : Event).Paced ceiling :=
  ⟨.nil, by simp, by simp, fun _ hbegan => by cases hbegan; exact h, by simp⟩

theorem entry {s : Session} {call : Call} (hlt : call.level < ceiling)
    (htoken : call.method.needsToken = true → s.current ≠ none) :
    (⟨.entry, s, [call]⟩ : Event).Paced ceiling :=
  ⟨List.pairwise_singleton _ _, List.forall_mem_singleton.2 hlt, by simp, by simp,
    fun _ => ⟨call, [], rfl, htoken⟩⟩

theorem exit {s : Session} {call : Call} (hlt : call.level < ceiling)
    (hadvances : call.method.advances = true → s.ahead.length < call.entry.ahead.length) :
    (⟨.exit, s, [call]⟩ : Event).Paced ceiling :=
  ⟨List.pairwise_singleton _ _, List.forall_mem_singleton.2 hlt,
    fun _ => ⟨call, [], rfl, hadvances⟩, by simp, by simp⟩

end Event.Paced

/-! ## 2. Renderings -/

namespace Rendering

variable {α β : Type} {s : Session} {rank credit : Nat}

/-- From a session on with some credit: calls below a ceiling, complaints about the text
alone, all rounds paid for, and so much credit left where it ends well. -/
structure Paced (s : Session) (rank credit : Nat) (after : α → Nat) (o : Rendering α) : Prop where
  complains : ∀ fault, o.value = .error fault → fault.IsGrammar
  stops : ∀ fault, o.value = .error fault → o.rounds ≤ 4 * s.ahead.length + credit
  ends : ∀ a, o.value = .ok a →
    o.rounds + after a + 4 * o.session.ahead.length ≤ 4 * s.ahead.length + credit
  events : ∀ e ∈ o.events, e.Paced (5 * s.ahead.length + rank)

namespace Paced

variable {after : α → Nat} {o : Rendering α}

/-- It ends with more credit than it began with, so it has taken a leaf. -/
theorem length_lt (h : o.Paced s rank credit after) {a : α} (hvalue : o.value = .ok a)
    (hafter : credit < after a) : o.session.ahead.length < s.ahead.length := by
  have hends := h.ends a hvalue
  omega

/-- However it ends, its rounds are paid for. -/
theorem rounds_le (h : o.Paced s rank credit after) : o.rounds ≤ 4 * s.ahead.length + credit := by
  cases hvalue : o.value with
  | error fault => exact h.stops fault hvalue
  | ok a =>
    have hends := h.ends a hvalue
    omega

theorem silent {a : α} {t : Session} (h : after a + 4 * t.ahead.length ≤ 4 * s.ahead.length + credit) :
    (⟨.ok a, t, []⟩ : Rendering α).Paced s rank credit after where
  complains := by simp
  stops := by simp
  ends b hb := by
    cases hb
    have hrounds : (⟨.ok a, t, []⟩ : Rendering α).rounds = 0 := rfl
    rw [hrounds, Nat.zero_add]
    exact h
  events := by simp

theorem complaint {fault : Fault} {t : Session} (h : fault.IsGrammar) :
    (⟨.error fault, t, []⟩ : Rendering α).Paced s rank credit after where
  complains _ hfault := by cases hfault; exact h
  stops _ _ := Nat.zero_le _
  ends := by simp
  events := by simp

/-- The second part begins with the credit that the first one leaves. -/
theorem andThen {later : β → Nat} {below : Nat} {f : α → Session → Rendering β}
    (ho : o.Paced s rank credit after)
    (hf : ∀ a, o.value = .ok a → (f a o.session).Paced o.session below (after a) later)
    (hbelow : ∀ a, o.value = .ok a →
      5 * o.session.ahead.length + below ≤ 5 * s.ahead.length + rank) :
    (o.andThen f).Paced s rank credit later := by
  unfold Rendering.andThen
  cases hvalue : o.value with
  | error fault =>
    exact ⟨fun _ h => by cases h; exact ho.complains fault hvalue,
      fun _ _ => ho.stops fault hvalue, by simp, ho.events⟩
  | ok a =>
    have hends := ho.ends a hvalue
    have hlater := hf a hvalue
    have hrounds : (⟨(f a o.session).value, (f a o.session).session,
        o.events ++ (f a o.session).events⟩ : Rendering β).rounds =
          o.rounds + (f a o.session).rounds := List.countP_append
    refine ⟨hlater.complains, fun fault hfault => ?_, fun b hb => ?_, fun e he => ?_⟩
    · have hstops := hlater.stops fault hfault
      rw [hrounds]
      omega
    · have hlaterEnds := hlater.ends b hb
      rw [hrounds]
      dsimp only
      omega
    · obtain he | he := List.mem_append.1 he
      · exact ho.events e he
      · exact (hlater.events e he).mono (hbelow a hvalue)

end Paced

end Rendering

/-! ## 3. Renderers -/

namespace Renderer

variable {α β σ : Type} {n rank c m k : Nat} {after : α → Nat} {later : β → Nat}

theorem length_le (w : Renderer α) (s : Session) :
    (w.run s).session.ahead.length ≤ s.ahead.length :=
  (w.from_start s).moves.follows.length_le

/-- The renderer is paced wherever fewer leaves are ahead than the bound. -/
def Paced (n rank credit : Nat) (after : α → Nat) (w : Renderer α) : Prop :=
  ∀ s, s.ahead.length < n → (w.run s).Paced s rank credit after

namespace Paced

variable {w w' : Renderer α} {f : α → Renderer β}

/-- What is paced in front of a leaf is paced behind one. -/
theorem behind (h : Paced (n + 1) rank c after w) : Paced n rank c after w :=
  fun s hs => h s (Nat.lt_succ_of_lt hs)

/-- Less credit than there is may be left. -/
theorem leaving {less : Nat} (h : Paced n rank c (fun _ => m) w) (hless : less ≤ m) :
    Paced n rank c (fun _ => less) w := by
  intro s hs
  have hw := h s hs
  exact { hw with ends := fun a ha => by have hends := hw.ends a ha; omega }

theorem pure {a : α} (h : after a ≤ c) : Paced n rank c after (pure a) :=
  fun _ _ => .silent (by omega)

/-- What comes before is only known to be paced here. -/
theorem bindAt {s : Session} (h : (w.run s).Paced s rank c (fun _ => m))
    (hf : ∀ a, Paced n rank m later (f a)) (hs : s.ahead.length < n) :
    ((w >>= f).run s).Paced s rank c later := by
  have hle := w.length_le s
  exact h.andThen (fun a _ => hf a _ (hle.trans_lt hs)) fun _ _ => by omega

theorem bind (h : Paced n rank c (fun _ => m) w) (hf : ∀ a, Paced n rank m later (f a)) :
    Paced n rank c later (w >>= f) :=
  fun s hs => bindAt (h s hs) hf hs

/-- Behind a leaf everything may be called, and nesting has one leaf less to go through. -/
theorem leafBind (h : Paced (n + 1) rank c (fun _ => m) w) (hm : c < m)
    (hf : ∀ a, Paced n 5 m later (f a)) : Paced (n + 1) rank c later (w >>= f) := by
  intro s hs
  refine (h s hs).andThen (fun a ha => hf a _ ?_) fun a ha => ?_
  · have hlt := (h s hs).length_lt ha hm
    omega
  · have hlt := (h s hs).length_lt ha hm
    omega

/-- Looking at the session is no move. -/
theorem askBind {g : Session → β} {f : β → Renderer α} (h : ∀ b, Paced n rank c after (f b)) :
    Paced n rank c after (ask g >>= f) :=
  fun s hs => h (g s) s hs

/-- Where a token is ahead, it is known below which one. -/
theorem lookAt {f : Option Token → Renderer α} {s : Session} {t : Token} (ht : s.current = some t)
    (h : ((f (some t)).run s).Paced s rank c after) :
    ((current >>= f).run s).Paced s rank c after := by
  rw [← ht] at h
  exact h

/-- The two cases for the next token. -/
theorem look {f : Option Token → Renderer α} (hnone : Paced n rank c after (f none))
    (hsome : ∀ s t, s.ahead.length < n → s.current = some t →
      ((f (some t)).run s).Paced s rank c after) :
    Paced n rank c after (current >>= f) := by
  intro s hs
  cases ht : s.current with
  | none =>
    have hrun := hnone s hs
    rw [← ht] at hrun
    exact hrun
  | some t => exact lookAt ht (hsome s t hs ht)

theorem ite {p : Prop} [Decidable p] (h : Paced n rank c after w) (h' : Paced n rank c after w') :
    Paced n rank c after (if p then w else w') := by
  split
  · exact h
  · exact h'

/-! Failing and taking leaves. -/

theorem failNear {what : Complaint} {near : Option Token} :
    Paced n rank c after (failNear what near) :=
  fun s _ => .complaint (s.complaint_isGrammar _ _)

theorem fail {what : Complaint} : Paced n rank c after (fail what) :=
  fun s _ => .complaint (s.complaint_isGrammar _ _)

/-- A leaf earns a credit of four. -/
theorem next : Paced n rank c (fun _ => c + 4) next := by
  intro s _
  cases hahead : s.ahead with
  | nil =>
    simp only [Renderer.next, hahead]
    exact .complaint (s.complaint_isGrammar _ _)
  | cons l rest =>
    simp only [Renderer.next, hahead]
    refine .silent ?_
    simp only [hahead, List.length_cons]
    omega

theorem expect {text : String} : Paced n rank c (fun _ => c + 4) (expect text) :=
  askBind fun _ => ite next fail

theorem expectName : Paced n rank c (fun _ => c + 4) expectName :=
  askBind fun _ => ite (bind next fun _ => pure (Nat.le_refl _)) fail

/-! Putting down. -/

theorem lay {item : Item} {h : item.remarks = []} : Paced n rank c (fun _ => c) (lay item h) :=
  fun _ _ => .silent (Nat.add_comm c _).le

/-- Something is put down first. -/
theorem put {item : Item} {hitem : item.remarks = []} (h : Paced n rank c after w) :
    Paced n rank c after (Renderer.lay item hitem >>= fun _ => w) :=
  bind lay fun _ => h

theorem putAt {item : Item} {hitem : item.remarks = []} {s : Session}
    (h : (w.run { s with page := s.page.lay item }).Paced { s with page := s.page.lay item }
      rank c after) :
    ((Renderer.lay item hitem >>= fun _ => w).run s).Paced s rank c after :=
  (lay s (Nat.lt_succ_self _)).andThen (fun _ _ => h) fun _ _ => Nat.le_refl _

theorem spaceWhere {test : Bool} : Paced n rank c (fun _ => c) (spaceWhere test) :=
  ite lay (pure (Nat.le_refl c))

theorem flush {indent : Int} : Paced n rank c (fun _ => c) (flush indent) :=
  fun _ _ => .silent (Nat.add_comm c _).le

theorem writeAll (texts : List String) : Paced n rank c (fun _ => c) (writeAll texts) := by
  induction texts with
  | nil => exact pure (Nat.le_refl c)
  | cons text rest ih => exact bind lay fun _ => ih

theorem separated {put : β → Renderer Unit} (hput : ∀ b, Paced n rank c (fun _ => c) (put b))
    (bs : List β) : Paced n rank c (fun _ => c) (separated put bs) := by
  induction bs with
  | nil => exact pure (Nat.le_refl c)
  | cons b rest ih =>
    cases rest with
    | nil => exact hput b
    | cons b' more => exact bind (hput b) fun _ => bind lay fun _ => bind lay fun _ => ih

/-! Calls and loops. -/

/-- A call begins no rounds but those within it. -/
theorem rounds_call (method : Method) (w : Renderer α) (s : Session) :
    ((Renderer.call method w).run s).rounds = (w.run s).rounds := by
  have hwithin : Event.beginsRound ∘ Event.within ⟨method, s⟩ = Event.beginsRound := rfl
  have hexits : (w.run s).exits.countP Event.beginsRound = 0 := by
    refine List.countP_eq_zero.2 fun e he => ?_
    obtain ⟨a, -, rfl⟩ := Rendering.of_mem_exits he
    exact Bool.false_ne_true
  unfold Rendering.rounds Renderer.call
  rw [List.countP_map, hwithin, List.countP_append, hexits, Nat.add_zero]
  exact List.countP_cons_of_neg Bool.false_ne_true

/-- A call where its method may be entered. -/
theorem callAt {method : Method} {s : Session} (h : (w.run s).Paced s method.rank c after)
    (hrank : method.rank < rank) (hafter : method.advances = true → ∀ a, c < after a)
    (htoken : method.needsToken = true → s.current ≠ none) :
    ((call method w).run s).Paced s rank c after := by
  have hlevel : Call.level ⟨method, s⟩ < 5 * s.ahead.length + rank := Nat.add_lt_add_left hrank _
  have hrounds := rounds_call method w s
  refine ⟨h.complains, fun fault hfault => hrounds ▸ h.stops fault hfault,
    fun a ha => hrounds ▸ h.ends a ha, List.forall_mem_map.2 fun e he => ?_⟩
  obtain he | he := List.mem_append.1 he
  · obtain rfl | he := List.mem_cons.1 he
    · exact .entry hlevel htoken
    · have hcall : e.Paced (Call.level ⟨method, s⟩) := h.events e he
      exact hcall.within hlevel
  · obtain ⟨a, hvalue, rfl⟩ := Rendering.of_mem_exits he
    exact .exit hlevel fun hadvances => h.length_lt hvalue (hafter hadvances a)

theorem call {method : Method} (h : Paced n method.rank c after w) (hrank : method.rank < rank)
    (hafter : method.advances = true → ∀ a, c < after a) (htoken : method.needsToken = false) :
    Paced n rank c after (call method w) :=
  fun s hs => callAt (h s hs) hrank hafter fun hneeds => by rw [htoken] at hneeds; cases hneeds

/-- What a round leaves: the price of another one if the loop goes on. -/
def stake (k : Nat) : ForInStep σ → Nat
  | .yield _ => k + 1
  | .done _ => k

/-- A round begins, and those within it. -/
theorem rounds_lap (step : Renderer (ForInStep σ)) (s : Session) :
    ((Renderer.lap step).run s).rounds = (step.run s).rounds + 1 := by
  have hgoesOn : ((step.run s).goesOn s).countP Event.beginsRound = 0 := by
    refine List.countP_eq_zero.2 fun e he => ?_
    obtain ⟨y, -, rfl⟩ := Rendering.of_mem_goesOn he
    exact Bool.false_ne_true
  unfold Rendering.rounds Renderer.lap
  rw [List.countP_append, hgoesOn, Nat.add_zero]
  exact List.countP_cons_of_pos (p := Event.beginsRound) rfl

theorem lap {step : Renderer (ForInStep σ)} (h : Paced n rank k (stake k) step) :
    Paced n rank (k + 1) (stake k) (lap step) := by
  intro s hs
  have hstep := h s hs
  have hrounds := rounds_lap step s
  refine ⟨hstep.complains, fun fault hfault => ?_, fun a ha => ?_, fun e he => ?_⟩
  · have hstops := hstep.stops fault hfault
    omega
  · have hends := hstep.ends a ha
    rw [hrounds]
    show _ + _ + 4 * (step.run s).session.ahead.length ≤ _
    omega
  · obtain he | he := List.mem_append.1 he
    · obtain rfl | he := List.mem_cons.1 he
      · exact .round s
      · exact hstep.events e he
    · obtain ⟨y, hvalue, rfl⟩ := Rendering.of_mem_goesOn he
      exact .again (hstep.length_lt hvalue (Nat.lt_succ_self k))

/-- A round after which the loop goes on has taken a leaf. -/
theorem lap_length_lt {step : Renderer (ForInStep σ)} (h : Paced n rank k (stake k) step)
    {s : Session} (hs : s.ahead.length < n) {y : σ}
    (hvalue : ((Renderer.lap step).run s).value = .ok (.yield y)) :
    ((Renderer.lap step).run s).session.ahead.length < s.ahead.length :=
  (h s hs).length_lt hvalue (Nat.lt_succ_self k)

/-- Each round pays for the next one, so the leaves ahead are enough for all. -/
theorem loopAlong {step : σ → Renderer (ForInStep σ)}
    (h : ∀ x, Paced n rank k (stake k) (step x)) (bound : List Leaf) (x : σ) {s : Session}
    (hs : s.ahead.length < n) (hbound : s.ahead.length ≤ bound.length) :
    ((loopAlong step bound x).run s).Paced s rank (k + 1) (fun _ => k) := by
  induction bound generalizing x s with
  | nil =>
    refine (lap (h x) s hs).andThen (fun a ha => ?_) fun _ _ =>
      Nat.add_le_add_right (Nat.mul_le_mul_left 5 (length_le _ s)) rank
    cases a with
    | done y => exact .silent (Nat.add_comm _ _).le
    | yield y => exact absurd ((lap_length_lt (h x) hs ha).trans_le hbound) (Nat.not_lt_zero _)
  | cons l rest ih =>
    refine (lap (h x) s hs).andThen (fun a ha => ?_) fun _ _ =>
      Nat.add_le_add_right (Nat.mul_le_mul_left 5 (length_le _ s)) rank
    cases a with
    | done y => exact .silent (Nat.add_comm _ _).le
    | yield y =>
      have hlt := lap_length_lt (h x) hs ha
      exact ih y (hlt.trans hs) (Nat.le_of_lt_succ (hlt.trans_le hbound))

theorem loop {step : σ → Renderer (ForInStep σ)} (h : ∀ x, Paced n rank k (stake k) (step x))
    (x : σ) : Paced n rank (k + 1) (fun _ => k) (loop step x) :=
  fun s hs => loopAlong h s.ahead x hs (Nat.le_refl _)

/-- A round that is the last. -/
theorem done {y : σ} (h : k ≤ c) :
    Paced n rank c (stake k) (Pure.pure (.done y) : Renderer (ForInStep σ)) := pure h

/-- A round behind which the loop goes on. -/
theorem yield {y : σ} (h : k + 1 ≤ c) :
    Paced n rank c (stake k) (Pure.pure (.yield y) : Renderer (ForInStep σ)) := pure h

end Paced

end Renderer

end LuaLayout
