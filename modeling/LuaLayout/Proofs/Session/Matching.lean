/-
LuaLayout.Proofs.Session.Matching — a renderer set against a parser.

A request is answered by reading a part of the grammar and laying it out. A renderer
reads and writes in turns. `Matches` sets one against the other from one session: both
fail with the same fault, or both succeed, leave the same leaves ahead, and what the
renderer has put down is the layout of what the parser has read.

There is a rule for each way of building a renderer. A rule moves the session on, so
that what is left to show at the end is an equation between two pages. Where comments
begin to wait does not matter as long as no line is started, which is all that such an
equation needs.
-/
import LuaLayout.Parser.Expression
import LuaLayout.Proofs.Parser.Steps
import LuaLayout.Proofs.Session.Methods

namespace LuaLayout

/-! ## 1. Pages -/

namespace Page

@[simp] theorem queueAll_nil (p : Page) : p.queueAll [] = p := by
  simp [queueAll]

@[simp] theorem queueAll_queueAll (p : Page) (notes more : List String) :
    (p.queueAll notes).queueAll more = p.queueAll (notes ++ more) := by
  simp [queueAll]

/-- It makes no difference whether a comment begins to wait before or after a piece. -/
@[simp] theorem put_queueAll (p : Page) (notes : List String) (piece : Piece) :
    (p.queueAll notes).put piece = (p.put piece).queueAll notes := rfl

@[simp] theorem layAll_word (p : Page) (text : String) (notes : List String) (items : List Item) :
    p.layAll (.word text notes :: items) = ((p.put (.text text)).queueAll notes).layAll items := rfl

@[simp] theorem layAll_omitted (p : Page) (notes : List String) (items : List Item) :
    p.layAll (.omitted notes :: items) = (p.queueAll notes).layAll items := rfl

@[simp] theorem layAll_space (p : Page) (items : List Item) :
    p.layAll (.space :: items) = (p.put .space).layAll items := rfl

@[simp] theorem layAll_spaceIf_queueAll (p : Page) (notes : List String) (test : Bool) :
    (p.queueAll notes).layAll (spaceIf test) = (p.layAll (spaceIf test)).queueAll notes := by
  cases test <;> rfl

@[simp] theorem layAll_line (p : Page) (indent noteIndent : Int) (blank : Bool)
    (items : List Item) : p.layAll (.line indent noteIndent blank :: items) =
      (p.startLine indent noteIndent blank).layAll items := rfl

attribute [simp] layAll_append

end Page

namespace Renderer

variable {α β γ δ σ : Type}

/-! ## 2. Matching -/

/-- From so many leaves ahead and such a page, the renderer fails as the parser does, or
its value and its page are the ones given for what the parser reads, with the same leaves
ahead. -/
def Matches (s : Session) (ahead : List Leaf) (page : Page) (w : Renderer β) (p : Parser α)
    (value : α → β) (out : α → Page) : Prop :=
  (w.run ⟨s.style, s.tokens, ahead, page⟩).result = match p ahead with
    | .ok (a, ahead) => .ok (value a, ⟨s.style, s.tokens, ahead, out a⟩)
    | .error failure => .error (s.faultOf failure)

/-- From everywhere, the renderer puts down the items of what the parser reads. -/
def Draws (w : Renderer β) (p : Parser α) (value : α → β) (items : Bool → α → List Item) : Prop :=
  ∀ s ahead page, Matches s ahead page w p value fun a => page.layAll (items s.style.groups a)

theorem bind_congr_at {p p' : Parser α} {f : α → Parser β} {ahead : List Leaf}
    (h : p ahead = p' ahead) : (p >>= f) ahead = (p' >>= f) ahead := by
  change (p ahead >>= fun x => f x.1 x.2) = (p' ahead >>= fun x => f x.1 x.2)
  rw [h]

theorem bind_of_ok {p : Parser α} {f : α → Parser β} {ahead rest : List Leaf} {a : α}
    (h : p ahead = .ok (a, rest)) : (p >>= f) ahead = f a rest := by
  change (p ahead >>= fun x => f x.1 x.2) = _
  rw [h]
  rfl

theorem run_bind (w : Renderer α) (f : α → Renderer β) (s : Session) :
    (w >>= f).run s = (w.run s).andThen fun a => (f a).run := rfl

theorem result_andThen (o : Rendering α) (f : α → Session → Rendering β) :
    (o.andThen f).result = match o.result with
      | .ok (a, s) => (f a s).result
      | .error fault => .error fault := by
  obtain ⟨value, s, events⟩ := o
  cases value with
  | error fault => rfl
  | ok a => rfl

theorem result_call (m : Method) (w : Renderer α) (s : Session) :
    ((call m w).run s).result = (w.run s).result := rfl

theorem result_lap (step : Renderer (ForInStep σ)) (s : Session) :
    ((lap step).run s).result = (step.run s).result := rfl

namespace Matches

variable {s : Session} {ahead : List Leaf} {page : Page} {w w' : Renderer β} {p p' : Parser α}
  {value : α → β} {out : α → Page}

theorem bind {f : β → Renderer γ} {g : α → Parser δ} {later : δ → γ} {outLater : δ → Page}
    (h : Matches s ahead page w p value out)
    (hf : ∀ a rest, p ahead = .ok (a, rest) →
      Matches s rest (out a) (f (value a)) (g a) later outLater) :
    Matches s ahead page (w >>= f) (p >>= g) later outLater := by
  unfold Matches at h ⊢
  rw [run_bind, result_andThen, h]
  change _ = match (p ahead >>= fun x => g x.1 x.2) with
    | .ok (b, rest) => _
    | .error failure => _
  cases hp : p ahead with
  | error failure => rfl
  | ok x => exact hf x.1 x.2 hp

/-- A part that is drawn, and what comes after it. -/
theorem draw {items : Bool → α → List Item} {f : β → Renderer γ} {g : α → Parser δ}
    {later : δ → γ} {outLater : δ → Page} (h : Draws w p value items)
    (hf : ∀ a rest, p ahead = .ok (a, rest) →
      Matches s rest (page.layAll (items s.style.groups a)) (f (value a)) (g a) later outLater) :
    Matches s ahead page (w >>= f) (p >>= g) later outLater :=
  (h s ahead page).bind hf

/-- A renderer that ends where the parser still makes something of what was read. -/
theorem tail (h : Matches s ahead page (w >>= pure) p value out) :
    Matches s ahead page w p value out := by
  unfold Matches at h ⊢
  rw [← h, run_bind, result_andThen]
  cases (w.run _).result with
  | error fault => rfl
  | ok x => rfl

/-- A renderer that still puts something down where the parser ends. -/
theorem parserTail (h : Matches s ahead page w (p >>= pure) value out) :
    Matches s ahead page w p value out := by
  rwa [bind_pure] at h

theorem pure {a : α} {b : β} (hvalue : b = value a) (hpage : page = out a) :
    Matches s ahead page (pure b) (pure a) value out := by
  subst hvalue hpage
  rfl

/-- A part that is drawn is the last of the renderer, and all that the parser needs. -/
theorem drawLast {w : Renderer β} {p : Parser γ} {value : γ → β} {items : Bool → γ → List Item}
    {f : γ → α} {later : α → β} (h : Draws w p value items) (hvalue : ∀ a, value a = later (f a))
    (hpage : ∀ a, page.layAll (items s.style.groups a) = out (f a)) :
    Matches s ahead page w (p >>= fun a => Pure.pure (f a)) later out :=
  .tail (.draw h fun a _ _ => .pure (hvalue a) (hpage a))

theorem map {f : α → δ} {later : δ → β} {outLater : δ → Page}
    (h : Matches s ahead page w p (fun a => later (f a)) fun a => outLater (f a)) :
    Matches s ahead page w (f <$> p) later outLater := by
  unfold Matches at h ⊢
  rw [h, map_eq_pure_bind]
  change _ = match (p ahead >>= fun x => (Pure.pure (f x.1) : Parser δ) x.2) with
    | .ok (b, rest) => _
    | .error failure => _
  cases p ahead with
  | error failure => rfl
  | ok x => rfl

theorem ite {c : Prop} [Decidable c] (hpos : c → Matches s ahead page w p value out)
    (hneg : ¬ c → Matches s ahead page w' p' value out) :
    Matches s ahead page (if c then w else w') (if c then p else p') value out := by
  by_cases h : c
  · rw [if_pos h, if_pos h]
    exact hpos h
  · rw [if_neg h, if_neg h]
    exact hneg h

/-- Only the renderer chooses. -/
theorem iteAlone {c : Prop} [Decidable c] {w w' : Renderer γ} {f : γ → Renderer β}
    (hpos : c → Matches s ahead page (w >>= f) p value out)
    (hneg : ¬ c → Matches s ahead page (w' >>= f) p value out) :
    Matches s ahead page ((if c then w else w') >>= f) p value out := by
  by_cases h : c
  · rw [if_pos h]
    exact hpos h
  · rw [if_neg h]
    exact hneg h

/-- The parser may be another one that reads the same here. -/
theorem parserEq (hp : p ahead = p' ahead) (h : Matches s ahead page w p' value out) :
    Matches s ahead page w p value out := by
  unfold Matches at h ⊢
  rwa [hp]

/-! ## 3. Calls and what is put in sequence -/

theorem call {m : Method} (h : Matches s ahead page w p value out) :
    Matches s ahead page (Renderer.call m w) p value out := h

/-- What a method does stays the same without its call. -/
theorem callBind {m : Method} {w : Renderer γ} {f : γ → Renderer β}
    (h : Matches s ahead page (w >>= f) p value out) :
    Matches s ahead page (Renderer.call m w >>= f) p value out := by
  unfold Matches at h ⊢
  rw [← h, run_bind, run_bind, result_andThen, result_andThen, result_call]

theorem lapBind {step : Renderer (ForInStep γ)} {f : ForInStep γ → Renderer β}
    (h : Matches s ahead page (step >>= f) p value out) :
    Matches s ahead page (lap step >>= f) p value out := by
  unfold Matches at h ⊢
  rw [← h, run_bind, run_bind, result_andThen, result_andThen, result_lap]

theorem assoc {w : Renderer γ} {f : γ → Renderer δ} {g : δ → Renderer β}
    (h : Matches s ahead page (w >>= fun a => f a >>= g) p value out) :
    Matches s ahead page (w >>= f >>= g) p value out := by
  unfold Matches at h ⊢
  rw [← h]
  simp only [run_bind, result_andThen]
  cases (w.run _).result with
  | error fault => rfl
  | ok x => rfl

theorem parserAssoc {p : Parser γ} {f : γ → Parser δ} {g : δ → Parser α}
    (h : Matches s ahead page w (p >>= fun a => f a >>= g) value out) :
    Matches s ahead page w (p >>= f >>= g) value out := by
  rwa [bind_assoc]

theorem parserMap {p : Parser γ} {f : γ → δ} {g : δ → Parser α}
    (h : Matches s ahead page w (p >>= fun a => g (f a)) value out) :
    Matches s ahead page w (f <$> p >>= g) value out := by
  rwa [bind_map_left]

theorem pureBind {a : γ} {f : γ → Renderer β} (h : Matches s ahead page (f a) p value out) :
    Matches s ahead page (Pure.pure a >>= f) p value out := h

theorem parserPureBind {a : γ} {g : γ → Parser α} (h : Matches s ahead page w (g a) value out) :
    Matches s ahead page w (Pure.pure a >>= g) value out := h

/-! ## 4. Looking ahead and failing -/

theorem ask {f : γ → Renderer β} {look : Session → γ}
    (h : Matches s ahead page (f (look ⟨s.style, s.tokens, ahead, page⟩)) p value out) :
    Matches s ahead page (ask look >>= f) p value out := h

theorem current {f : Option Token → Renderer β} {g : Option Token → Parser α}
    (h : Matches s ahead page (f (Parser.tokenAt 0 ahead)) (g (Parser.tokenAt 0 ahead)) value out) :
    Matches s ahead page (current >>= f) (Parser.current >>= g) value out := h

/-- Only the renderer looks. -/
theorem currentAlone {f : Option Token → Renderer β}
    (h : Matches s ahead page (f (Parser.tokenAt 0 ahead)) p value out) :
    Matches s ahead page (Renderer.current >>= f) p value out := h

/-- There is no leaf ahead, or there is a first one. -/
theorem look {f : Option Token → Renderer β} {g : Option Token → Parser α}
    (hnone : ahead = [] → Matches s [] page (f none) (g none) value out)
    (hsome : ∀ l rest, ahead = l :: rest →
      Matches s (l :: rest) page (f (some l.token)) (g (some l.token)) value out) :
    Matches s ahead page (Renderer.current >>= f) (Parser.current >>= g) value out := by
  cases ahead with
  | nil => exact hnone rfl
  | cons l rest => exact hsome l rest rfl

theorem currentIs {f : Option Token → Renderer β} {g : Bool → Parser α} {test : Token → Bool}
    (h : Matches s ahead page (f (Parser.tokenAt 0 ahead)) (g ((Parser.tokenAt 0 ahead).any test))
      value out) :
    Matches s ahead page (Renderer.current >>= f) (Parser.currentIs test >>= g) value out := h

theorem sees {f : Bool → Renderer β} {g : Bool → Parser α} {text : String}
    (h : ∀ b, Parser.hasTextAt 0 text ahead = b → Matches s ahead page (f b) (g b) value out) :
    Matches s ahead page (sees text >>= f) (Parser.sees text >>= g) value out := h _ rfl

theorem seesSecond {f : Bool → Renderer β} {g : Bool → Parser α} {text : String}
    (h : ∀ b, Parser.hasTextAt 1 text ahead = b → Matches s ahead page (f b) (g b) value out) :
    Matches s ahead page (check text 1 >>= f) (Parser.seesSecond text >>= g) value out := h _ rfl

/-- Only the renderer looks. -/
theorem seesAlone {f : Bool → Renderer β} {text : String}
    (h : Matches s ahead page (f (Parser.hasTextAt 0 text ahead)) p value out) :
    Matches s ahead page (Renderer.sees text >>= f) p value out := h

/-- Only the parser looks. -/
theorem parserSees {g : Bool → Parser α} {text : String}
    (h : Matches s ahead page w (g (Parser.hasTextAt 0 text ahead)) value out) :
    Matches s ahead page w (Parser.sees text >>= g) value out := h

theorem parserSeesSeparator {g : Bool → Parser α}
    (h : Matches s ahead page w (g (Parser.hasTextAt 0 "," ahead || Parser.hasTextAt 0 ";" ahead))
      value out) :
    Matches s ahead page w (Parser.seesSeparator >>= g) value out := h

theorem fail {what : Complaint} : Matches s ahead page (fail what) (Parser.fail what) value out :=
  rfl

theorem failNear {what : Complaint} {near : Option Token} :
    Matches s ahead page (failNear what near) (Parser.failNear what near) value out := by
  cases near with
  | none => rfl
  | some t => rfl

theorem refuse {cause : Refusal} :
    Matches s ahead page (refuse cause) (Parser.refuse cause) value out := rfl

/-- What the parser expects is not there, as the renderer has found out already. -/
theorem failExpected {text : String} {f : γ → Renderer β} {g : Leaf → Parser α}
    (h : ¬ Parser.hasTextAt 0 text ahead = true) :
    Matches s ahead page (Renderer.fail (.expected text) >>= f) (Parser.expect text >>= g)
      value out := by
  have hfail : Parser.expect text ahead = Parser.fail (.expected text) ahead := by
    show (if Parser.hasTextAt 0 text ahead = true then Parser.next else _ : Parser _) ahead = _
    rw [if_neg h]
  exact .parserEq (bind_congr_at hfail) rfl

/-! ## 5. Putting down -/

theorem lay {item : Item} {hitem : item.remarks = []} {f : Unit → Renderer β}
    (h : Matches s ahead (page.lay item) (f ()) p value out) :
    Matches s ahead page (lay item hitem >>= f) p value out := h

theorem spaceWhere {test : Bool} {f : Unit → Renderer β}
    (h : Matches s ahead (page.layAll (spaceIf test)) (f ()) p value out) :
    Matches s ahead page (spaceWhere test >>= f) p value out := by
  cases test with
  | true => exact h
  | false => exact h

end Matches

/-- The renderer puts the items down and does nothing else. -/
def Writes (w : Renderer Unit) (items : List Item) : Prop :=
  ∀ s, w.run s = ⟨.ok (), { s with page := s.page.layAll items }, []⟩

/-- Things with commas between them. -/
def separatedItems (items : α → List Item) : List α → List Item
  | [] => []
  | [a] => items a
  | a :: rest => items a ++ .word "," [] :: .space :: separatedItems items rest

/-- A text alone. -/
def textItem (text : String) : List Item := [.word text []]

@[simp] theorem layAll_textItem (p : Page) (text : String) :
    p.layAll (textItem text) = p.put (.text text) := by
  simp [textItem]

theorem write_writes (text : String) : Writes (write text) (textItem text) := fun _ => rfl

theorem space_writes : Writes space [.space] := fun _ => rfl

theorem Writes.then {w w' : Renderer Unit} {items more : List Item} (h : Writes w items)
    (hmore : Writes w' more) : Writes (w >>= fun _ => w') (items ++ more) := by
  intro s
  rw [run_bind, h s]
  show (⟨_, _, _⟩ : Rendering Unit) = _
  simp only [hmore _, Page.layAll_append, List.append_nil]

theorem separated_writes {put : α → Renderer Unit} {items : α → List Item}
    (h : ∀ a, Writes (put a) (items a)) (l : List α) :
    Writes (separated put l) (separatedItems items l) := by
  match l with
  | [] => exact fun _ => rfl
  | [a] => exact h a
  | a :: b :: rest =>
    exact (h a).then ((write_writes ",").then (space_writes.then (separated_writes h (b :: rest))))

/-- It makes no difference whether comments begin to wait before or after the items. -/
def Bare (items : List Item) : Prop :=
  ∀ (p : Page) notes, (p.queueAll notes).layAll items = (p.layAll items).queueAll notes

theorem bare_textItem (text : String) : Bare (textItem text) := by
  intro p notes
  simp

theorem bare_separated {items : α → List Item} (h : ∀ a, Bare (items a)) (l : List α) :
    Bare (separatedItems items l) := by
  intro p notes
  match l with
  | [] => rfl
  | [a] => exact h a p notes
  | a :: b :: rest => simp [separatedItems, h a p notes, bare_separated h (b :: rest) _ notes]

@[simp] theorem layAll_separatedTexts_queueAll (p : Page) (notes texts : List String) :
    (p.queueAll notes).layAll (separatedItems textItem texts) =
      (p.layAll (separatedItems textItem texts)).queueAll notes :=
  bare_separated bare_textItem texts p notes

/-- Leaves that are laid out one after another, with commas before all but the first, are
what is put down at once when their comments wait already. -/
theorem layAll_gathered (items : β → List Item) (text : γ → β) (laid : γ → List Item)
    (remarks : γ → List String) (hitems : ∀ b, Bare (items b))
    (hlaid : ∀ c (p : Page), p.layAll (laid c) = (p.layAll (items (text c))).queueAll (remarks c))
    (first : γ) (more : List (Leaf × γ)) (p : Page) :
    p.layAll (laid first ++ more.flatMap fun x => x.1.wordAs "," :: .space :: laid x.2) =
      (p.layAll (separatedItems items (text first :: more.map (text ·.2)))).queueAll
        (remarks first ++ more.flatMap fun x => x.1.remarks ++ remarks x.2) := by
  induction more generalizing first p with
  | nil => simp [hlaid, separatedItems]
  | cons x more ih =>
    simp only [Leaf.wordAs] at ih ⊢
    rw [List.flatMap_cons, Page.layAll_append, hlaid]
    simp only [List.cons_append, Page.layAll_word, Page.layAll_space, Page.put_queueAll,
      Page.queueAll_queueAll]
    rw [ih, bare_separated hitems]
    simp [separatedItems, List.append_assoc]

theorem writeAll_writes (texts : List String) :
    Writes (writeAll texts) (texts.flatMap textItem) := by
  induction texts with
  | nil => exact fun _ => rfl
  | cons text rest ih => exact (write_writes text).then ih

namespace Matches

variable {s : Session} {ahead : List Leaf} {page : Page} {w w' : Renderer β} {p p' : Parser α}
  {value : α → β} {out : α → Page}

theorem writes {w : Renderer Unit} {items : List Item} {f : Unit → Renderer β} (hw : Writes w items)
    (h : Matches s ahead (page.layAll items) (f ()) p value out) :
    Matches s ahead page (w >>= f) p value out := by
  unfold Matches at h ⊢
  rw [← h, run_bind, result_andThen, hw]
  rfl

/-! ## 6. Taking leaves -/

/-- The leaf that is known to be next is taken. -/
theorem nextOf {f : Token → Renderer β} {g : Leaf → Parser α} {l : Leaf} {rest : List Leaf}
    (h : Matches s rest (page.queueAll l.remarks) (f l.token) (g l) value out) :
    Matches s (l :: rest) page (next >>= f) (Parser.next >>= g) value out := h

theorem next {f : Token → Renderer β} {g : Leaf → Parser α}
    (h : ∀ l rest, ahead = l :: rest →
      Matches s rest (page.queueAll l.remarks) (f l.token) (g l) value out) :
    Matches s ahead page (next >>= f) (Parser.next >>= g) value out := by
  cases ahead with
  | nil => rfl
  | cons l rest => exact h l rest rfl

end Matches

theorem next_draws : Draws next Parser.next (·.token) fun _ l => [l.omitted] :=
  fun _ _ _ => .tail (.parserTail (.next fun _ _ _ => .pure rfl rfl))

theorem expect_draws (text : String) :
    Draws (expect text) (Parser.expect text) (·.token) fun _ l => [l.omitted] :=
  fun s ahead page => .sees fun _ _ => .ite (fun _ => next_draws s ahead page) fun _ => .fail

theorem expectName_draws :
    Draws expectName Parser.expectName (·.token.text) fun _ l => [l.omitted] := by
  refine fun s ahead page => .currentIs (.ite (fun _ => ?_) fun _ => .fail)
  exact .parserTail (.next fun _ _ _ => .pure rfl rfl)

namespace Matches

variable {s : Session} {ahead : List Leaf} {page : Page} {p : Parser α} {value : α → β}
  {out : α → Page}

theorem expect {text : String} {f : Token → Renderer β} {g : Leaf → Parser α}
    (h : ∀ l rest, Parser.expect text ahead = .ok (l, rest) →
      Matches s rest (page.queueAll l.remarks) (f l.token) (g l) value out) :
    Matches s ahead page (expect text >>= f) (Parser.expect text >>= g) value out :=
  .draw (expect_draws text) h

theorem expectName {f : String → Renderer β} {g : Leaf → Parser α}
    (h : ∀ l rest, Parser.expectName ahead = .ok (l, rest) →
      Matches s rest (page.queueAll l.remarks) (f l.token.text) (g l) value out) :
    Matches s ahead page (expectName >>= f) (Parser.expectName >>= g) value out :=
  .draw expectName_draws h

end Matches

/-! ## 7. Loops -/

/-- What a round of a loop does with what a round of a parser gives. -/
def stepOf (next : σ → α → σ) (x : σ) : Option α → ForInStep σ
  | none => .done x
  | some a => .yield (next x a)

/-- The items of a round that gives something. -/
def itemsOf (items : Bool → σ → α → List Item) (x : σ) (groups : Bool) : Option α → List Item
  | none => []
  | some a => items groups x a

/-- The items of all rounds. -/
def gather (next : σ → α → σ) (items : σ → α → List Item) : σ → List α → List Item
  | _, [] => []
  | x, a :: rest => items x a ++ gather next items (next x a) rest

theorem loopAlong_draws {step : σ → Renderer (ForInStep σ)} {round : Parser (Option α)}
    {next : σ → α → σ} {items : Bool → σ → α → List Item}
    (h : ∀ x, Draws (step x) round (stepOf next x) (itemsOf items x)) (bound : List Leaf) (x : σ) :
    Draws (loopAlong step bound x) (Parser.manyAlong bound round) (·.foldl next x)
      fun groups => gather next (items groups) x := by
  induction bound generalizing x with
  | nil =>
    refine fun s ahead page => .lapBind (.draw (h x) fun a rest _ => ?_)
    cases a with
    | none => exact .pure rfl rfl
    | some a => exact .refuse
  | cons l bound ih =>
    refine fun s ahead page => .lapBind (.draw (h x) fun a rest _ => ?_)
    cases a with
    | none => exact .pure rfl rfl
    | some a => exact .drawLast (ih (next x a)) (fun _ => rfl) fun as => (Page.layAll_append ..).symm

/-- Where a round of the loop matches a round of the parser, the loop matches the repetition. -/
theorem loop_draws {step : σ → Renderer (ForInStep σ)} {round : Parser (Option α)}
    {next : σ → α → σ} {items : Bool → σ → α → List Item}
    (h : ∀ x, Draws (step x) round (stepOf next x) (itemsOf items x)) (x : σ) :
    Draws (loop step x) (Parser.many round) (·.foldl next x)
      fun groups => gather next (items groups) x :=
  fun s ahead page => loopAlong_draws h ahead x s ahead page

/-! ## 8. Loops and repetitions that are cut differently -/

/-- What a loop does behind a round. -/
def onward (step : σ → Renderer (ForInStep σ)) (bound : List Leaf) : ForInStep σ → Renderer σ
  | .done y => pure y
  | .yield y =>
    match bound with
    | [] => refuse .tooDeep
    | _ :: bound => loopAlong step bound y

theorem loopAlong_eq (step : σ → Renderer (ForInStep σ)) (bound : List Leaf) (x : σ) :
    loopAlong step bound x = lap (step x) >>= onward step bound := by
  cases bound <;> rfl

namespace Matches

variable {s : Session} {ahead : List Leaf} {page : Page} {w : Renderer β} {p : Parser α}
  {round : Parser (Option γ)} {k : List γ → Parser α} {value : α → β} {out : α → Page}

/-- A loop is its first round and what is done behind it. -/
theorem loop {step : σ → Renderer (ForInStep σ)} {x : σ} {f : σ → Renderer β}
    (h : Matches s ahead page (step x >>= fun y => onward step ahead y >>= f) p value out) :
    Matches s ahead page (Renderer.loop step x >>= f) p value out := by
  refine .assoc (.ask ?_)
  rw [loopAlong_eq]
  exact .assoc (.lapBind h)

/-- Behind a round that was not the last there is another one. -/
theorem goOn {step : σ → Renderer (ForInStep σ)} {y : σ} {f : σ → Renderer β} {m : Leaf}
    {bound : List Leaf}
    (h : Matches s ahead page (step y >>= fun z => onward step bound z >>= f) p value out) :
    Matches s ahead page (onward step (m :: bound) (.yield y) >>= f) p value out := by
  show Matches s ahead page (loopAlong step bound y >>= f) p value out
  rw [loopAlong_eq]
  exact .assoc (.lapBind h)

theorem rounds (h : Matches s ahead page w (Parser.manyAlong ahead round >>= k) value out) :
    Matches s ahead page w (Parser.many round >>= k) value out := h

/-- The repetition ends where its round gives nothing. -/
theorem roundsEnd {bound : List Leaf} (hround : round ahead = .ok (none, ahead))
    (h : Matches s ahead page w (k []) value out) :
    Matches s ahead page w (Parser.manyAlong bound round >>= k) value out := by
  refine .parserEq ?_ h
  have hmany : Parser.manyAlong bound round ahead = .ok ([], ahead) := by
    cases bound with
    | nil => exact bind_of_ok hround
    | cons _ _ => exact bind_of_ok hround
  exact bind_of_ok hmany

/-- The repetition goes on where its round is one that gives something. -/
theorem roundsOn {m : Leaf} {bound : List Leaf} {p : Parser γ}
    (hround : round ahead = (some <$> p : Parser _) ahead)
    (h : Matches s ahead page w
      (p >>= fun a => Parser.manyAlong bound round >>= fun as => k (a :: as)) value out) :
    Matches s ahead page w (Parser.manyAlong (m :: bound) round >>= k) value out := by
  refine .parserEq ?_ h
  show ((round >>= _) >>= k) ahead = _
  rw [bind_assoc, bind_congr_at hround, bind_map_left]
  simp only [bind_assoc, pure_bind]

end Matches

/-- What is drawn is gone from the leaves ahead. -/
theorem Draws.length_le {w : Renderer β} {p : Parser α} {value : α → β}
    {items : Bool → α → List Item} (h : Draws w p value items) {ahead rest : List Leaf} {a : α}
    (hp : p ahead = .ok (a, rest)) : rest.length ≤ ahead.length := by
  have hmatch := h ⟨.program, [], [], .empty⟩ ahead .empty
  have hmoves := (w.from_start ⟨.program, [], ahead, .empty⟩).moves
  unfold Matches Rendering.result at hmatch
  rw [hp] at hmatch
  generalize w.run _ = o at hmatch hmoves
  obtain ⟨value', session, events⟩ := o
  cases value' with
  | error fault => cases hmatch
  | ok b =>
    cases hmatch
    exact hmoves.follows.length_le

end Renderer

end LuaLayout
