/-
LuaLayout.Proofs.Session.StatementAgreement — the methods for statements follow their parsers.

Each form of statement is matched to its parser, and so are statements and blocks. The
names that a method gathers before it puts them down are the words that the layout has
between commas or dots; their comments wait all the same. The targets of an assignment
are checked by the round that follows them and by the parser at once, so the two are
followed together along the leaves ahead.
-/
import LuaLayout.Proofs.Session.Agreement

namespace LuaLayout

/-- The comments of a local name. -/
def LocalName.remarks (n : LocalName) : List String :=
  match n.mark with
  | none => n.name.remarks
  | some m => n.name.remarks ++ m.opening.remarks ++ m.word.remarks ++ m.closing.remarks

namespace Renderer

variable {s : Session} {ahead : List Leaf} {page : Page} {r : Rules} {q : LuaLayout.Rules}

/-! ## 1. Simple statements -/

theorem breakLoop_draws (indent : Int) :
    Draws breakLoop Parser.breakLoop Stat.declaresFunction
      fun groups stat => stat.layout groups indent := by
  refine fun s ahead page => .next fun word rest _ => .lay (.pure rfl ?_)
  simp [Stat.layout, Leaf.wordAs, Page.lay]

theorem goto_draws (indent : Int) :
    Draws goto Parser.goto Stat.declaresFunction
      fun groups stat => stat.layout groups indent := by
  refine fun s ahead page => .next fun word rest _ => .expectName fun name rest _ => ?_
  refine .lay (.lay (.lay (.pure rfl ?_)))
  simp [Stat.layout, Leaf.word, Leaf.wordAs, Page.lay]

theorem label_draws (indent : Int) :
    Draws label Parser.label Stat.declaresFunction
      fun groups stat => stat.layout groups indent := by
  refine fun s ahead page => .next fun opening rest _ => .expectName fun name rest _ => ?_
  refine .expect fun closing rest _ => .lay (.lay (.lay (.pure rfl ?_)))
  simp [Stat.layout, Leaf.word, Leaf.wordAs, Page.lay]

theorem empty_draws (indent : Int) :
    Draws empty Parser.empty Stat.declaresFunction
      fun groups stat => stat.layout groups indent := by
  refine fun s ahead page => .next fun word rest _ => .lay (.pure rfl ?_)
  simp [Stat.layout, Leaf.wordAs, Page.lay]

theorem returnValues_draws (h : r.Agrees q) (indent : Int) :
    Draws (returnValues r indent) (Parser.result q) Stat.declaresFunction
      fun groups stat => stat.layout groups indent := by
  refine fun s ahead page => .next fun word rest _ => .lay (.current (.ite (fun _ => ?_) fun _ => ?_))
  · refine .pure rfl ?_
    simp [Stat.layout, Leaf.wordAs, Page.lay]
  · refine .lay (.draw (expressions_draws h indent) fun values rest _ => .pure rfl ?_)
    simp [Stat.layout, Leaf.wordAs, Page.lay]

/-! ## 2. Blocks and loops -/

theorem doBlock_draws (h : r.Agrees q) (indent : Int) :
    Draws (doBlock r indent) (Parser.doBlock q) Stat.declaresFunction
      fun groups stat => stat.layout groups indent := by
  refine fun s ahead page => .next fun word rest _ => .lay (.draw (h.block _) fun block rest _ => ?_)
  refine .draw (closeBlock_draws indent "end") fun closing rest _ => .pure rfl ?_
  simp [Stat.layout, Leaf.wordAs, Page.lay]

/-- The end of a loop: the word that opens its block, the block and the word that closes it. -/
theorem loopBody_matches (h : r.Agrees q) {f : Leaf → Block → Leaf → Stat} {out : Stat → Page}
    {indent : Int} (hvalue : ∀ opening block closing,
      (f opening block closing).declaresFunction = false)
    (hpage : ∀ opening block closing, page.layAll (.space :: opening.wordAs "do" ::
      block.layout s.style.groups (indent + indentStep) ++
        LuaLayout.closeBlock indent "end" closing) = out (f opening block closing)) :
    Matches s ahead page (loopBody r indent)
      (Parser.expect "do" >>= fun opening => q.block >>= fun block =>
        Parser.expect "end" >>= fun closing => pure (f opening block closing))
      Stat.declaresFunction out := by
  refine .expect fun opening rest _ => .lay (.lay (.draw (h.block _) fun block rest _ => ?_))
  refine .draw (closeBlock_draws indent "end") fun closing rest _ => ?_
  refine .pure (hvalue _ _ _).symm ?_
  rw [← hpage]
  simp [Leaf.wordAs, Page.lay]

theorem whileLoop_draws (h : r.Agrees q) (indent : Int) :
    Draws (whileLoop r indent) (Parser.whileLoop q) Stat.declaresFunction
      fun groups stat => stat.layout groups indent := by
  refine fun s ahead page => .next fun word rest _ => .lay (.lay ?_)
  refine .draw (h.expression indent 0) fun condition rest _ => ?_
  refine loopBody_matches h ?_ fun opening block closing => ?_
  · exact fun _ _ _ => rfl
  · simp [Stat.layout, Leaf.wordAs, Page.lay]

theorem repeatLoop_draws (h : r.Agrees q) (indent : Int) :
    Draws (repeatLoop r indent) (Parser.repeatLoop q) Stat.declaresFunction
      fun groups stat => stat.layout groups indent := by
  refine fun s ahead page => .next fun word rest _ => .lay (.draw (h.block _) fun block rest _ => ?_)
  refine .draw (closeBlock_draws indent "until") fun closing rest _ => .lay ?_
  refine .draw (h.expression indent 0) fun condition rest _ => .pure rfl ?_
  simp [Stat.layout, Leaf.wordAs, Page.lay]

/-- A condition, the word behind it and the block that it opens. -/
theorem Matches.branch {α β : Type} {word : Leaf} {f : Unit → Renderer β} {g : Branch → Parser α}
    {value : α → β} {out : α → Page} {indent : Int} (h : r.Agrees q)
    (hf : ∀ condition opening block rest,
      Matches s rest (page.layAll (.space :: condition.layout s.style.groups indent ++
        .space :: opening.wordAs "then" :: block.layout s.style.groups (indent + indentStep)))
        (f ()) (g (.mk word condition opening block)) value out) :
    Matches s ahead page (branch r indent >>= f)
      ((q.expression 0 >>= fun condition => Parser.expect "then" >>= fun opening =>
        q.block >>= fun block => Pure.pure (.mk word condition opening block)) >>= g) value out := by
  refine .assoc (.lay (.assoc (.parserAssoc (.draw (h.expression indent 0) fun condition rest _ => ?_))))
  refine .assoc (.parserAssoc (.expect fun opening rest _ => .assoc (.lay (.assoc (.lay ?_)))))
  refine .parserAssoc (.draw (h.block _) fun block rest _ => .parserPureBind ?_)
  have hrest := hf condition opening block rest
  simpa [Leaf.wordAs, Page.lay] using hrest

/-- A word that was seen closes a block, where the parser just takes it. -/
theorem Matches.closeBlockSeen {α β : Type} {f : Unit → Renderer β} {g : Leaf → Parser α}
    {value : α → β} {out : α → Page} {indent : Int} {word : String}
    (hsees : Parser.hasTextAt 0 word ahead = true)
    (hf : ∀ l rest, Matches s rest (page.layAll (LuaLayout.closeBlock indent word l)) (f ()) (g l)
      value out) :
    Matches s ahead page (closeBlock indent word >>= f) (Parser.next >>= g) value out := by
  have hnext : Parser.next ahead = Parser.expect word ahead := by
    show _ = (if Parser.hasTextAt 0 word ahead = true then Parser.next else _ : Parser _) ahead
    rw [if_pos hsees]
  exact .parserEq (bind_congr_at hnext) (.draw (closeBlock_draws indent word) fun l rest _ => hf l rest)

/-- A further branch begins a line with its word, which closes the block before it. -/
theorem nextBranch_draws (h : r.Agrees q) (indent : Int) :
    Draws (nextBranch r indent) (Parser.ifSees "elseif" (Parser.branch q))
      (stepOf (fun _ _ => ()) ())
      (itemsOf (fun groups _ b => closingLine indent :: b.layout groups indent "elseif") ()) := by
  refine fun s ahead page => .sees fun b hsees => .ite (fun hb => .map ?_) fun _ => .pure rfl rfl
  subst hb
  refine .parserTail (.parserAssoc (.closeBlockSeen hsees fun word rest => ?_))
  refine .branch h fun condition opening block rest => .pure rfl ?_
  simp [itemsOf, Branch.layout, LuaLayout.closeBlock, closingLine, Leaf.wordAs]

theorem branchesLayout_eq (groups : Bool) (indent : Int) (more : List Branch) :
    branchesLayout groups indent more = gather (fun _ _ => ())
      (fun _ b => closingLine indent :: b.layout groups indent "elseif") () more := by
  induction more with
  | nil => rfl
  | cons b more ih =>
    rw [gather, ← ih]
    rfl

theorem otherwise_draws (h : r.Agrees q) (indent : Int) :
    Draws (otherwise r indent) (Parser.ifSees "else" (Parser.nextThen q.block)) (fun _ => ())
      fun groups o => otherwiseLayout groups indent o := by
  refine fun s ahead page => .sees fun b hsees => .ite (fun hb => .map ?_) fun _ => .pure rfl rfl
  subst hb
  refine .closeBlockSeen hsees fun word rest => ?_
  refine .drawLast (h.block _) (fun _ => rfl) fun block => ?_
  simp [otherwiseLayout]

theorem conditional_draws (h : r.Agrees q) (indent : Int) :
    Draws (conditional r indent) (Parser.conditional q) Stat.declaresFunction
      fun groups stat => stat.layout groups indent := by
  refine fun s ahead page => .parserAssoc (.next fun word rest _ => .lay ?_)
  refine .branch h fun condition opening block rest => ?_
  refine .draw (loop_draws (fun _ => nextBranch_draws h indent) ()) fun more rest _ => ?_
  refine .draw (otherwise_draws h indent) fun otherwise rest _ => ?_
  refine .draw (closeBlock_draws indent "end") fun closing rest _ => .pure rfl ?_
  simp [Stat.layout, Branch.layout, branchesLayout_eq, Leaf.wordAs, Page.lay]

/-! ## 3. Names gathered -/

theorem flatten_singletons {α β : Type} (g : α → β) (l : List α) :
    (l.map fun a => [g a]).flatten = l.map g := by
  rw [← List.flatMap_def, List.map_eq_flatMap]

theorem gather_eq_flatMap {α σ : Type} (next : σ → α → σ) (items : α → List Item) (x : σ)
    (as : List α) : gather next (fun _ a => items a) x as = as.flatMap items := by
  induction as generalizing x with
  | nil => rfl
  | cons a as ih => rw [gather, ih, List.flatMap_cons]

/-- Leaves left out let their comments wait. -/
@[simp] theorem layAll_omittedPairs (p : Page) (more : List (Leaf × Leaf)) :
    p.layAll (more.flatMap fun x => [x.1.omitted, x.2.omitted]) = p.queueAll (remarksOf more) := by
  induction more generalizing p with
  | nil => simp [remarksOf]
  | cons x more ih =>
    simp only [remarksOf, Leaf.omitted] at ih ⊢
    simp [ih]

/-- A name that is gathered: only its comments are put down, and wait. -/
theorem nextName_draws (names : List String) :
    Draws (nextName names) (Parser.ifSees "," (Parser.nextThen Parser.expectName))
      (stepOf (fun names p => names ++ [p.2.token.text]) names)
      (itemsOf (fun _ _ p => [p.1.omitted, p.2.omitted]) names) := by
  refine fun s ahead page => .sees fun _ _ => .ite (fun _ => .map ?_) fun _ => .pure rfl rfl
  refine .next fun comma rest _ => .expectName fun name rest _ => .pure rfl ?_
  simp [itemsOf, Leaf.omitted]

theorem step_draws (h : r.Agrees q) (indent : Int) :
    Draws (step r indent) (Parser.ifSees "," (Parser.nextThen (q.expression 0))) (fun _ => ())
      fun groups o => stepLayout groups indent o := by
  refine fun s ahead page => .sees fun _ _ => .ite (fun _ => .map ?_) fun _ => .pure rfl rfl
  refine .next fun comma rest _ => .lay (.lay (.drawLast (h.expression indent 0) (fun _ => rfl) ?_))
  intro e
  simp [stepLayout, Leaf.wordAs, Page.lay]

/-- The names of a loop are gathered before the first of them is put down. -/
theorem forLoop_draws (h : r.Agrees q) (indent : Int) :
    Draws (forLoop r indent) (Parser.forLoop q) Stat.declaresFunction
      fun groups stat => stat.layout groups indent := by
  refine fun s ahead page => .next fun word rest _ => .expectName fun name rest _ => ?_
  refine .sees fun _ _ => .ite (fun _ => ?_) fun _ => ?_
  · refine .next fun equals rest _ => .lay (.lay (.lay (.lay (.lay (.lay ?_)))))
    refine .draw (h.expression indent 0) fun start rest _ => .expect fun comma rest _ => ?_
    refine .lay (.lay (.draw (h.expression indent 0) fun stop rest _ => ?_))
    refine .draw (step_draws h indent) fun step rest _ => ?_
    refine loopBody_matches h ?_ fun opening block closing => ?_
    · exact fun _ _ _ => rfl
    · simp [Stat.layout, Leaf.word, Leaf.wordAs, Page.lay]
  · refine .draw (loop_draws nextName_draws [name.token.text]) fun more rest _ => ?_
    refine .expect fun between rest _ => .lay (.lay ?_)
    refine .writes (separated_writes write_writes _) (.lay (.lay (.lay ?_)))
    refine .draw (expressions_draws h indent) fun values rest _ => ?_
    refine loopBody_matches h ?_ fun opening block closing => ?_
    · exact fun _ _ _ => rfl
    · simp [Stat.layout, flatten_singletons, gather_eq_flatMap, layAll_commaNames, Leaf.wordAs,
        Page.lay]

/-! ## 4. Declarations -/

theorem nextPart_draws (path : List String) :
    Draws (nextPart path) (Parser.ifSees "." (Parser.nextThen Parser.expectName))
      (stepOf (fun path p => path ++ [".", p.2.token.text]) path)
      (itemsOf (fun _ _ p => [p.1.omitted, p.2.omitted]) path) := by
  refine fun s ahead page => .sees fun _ _ => .ite (fun _ => .map ?_) fun _ => .pure rfl rfl
  refine .next fun dot rest _ => .expectName fun part rest _ => .pure rfl ?_
  simp [itemsOf, Leaf.omitted]

/-- The name of a method ends the path of a function, if it is there. -/
theorem methodName_draws (path : List String) :
    Draws (methodName path) (Parser.ifSees ":" (Parser.nextThen Parser.expectName))
      (fun o => path ++ o.toList.flatMap fun p => [":", p.2.token.text])
      fun _ o => o.toList.flatMap fun p => [p.1.omitted, p.2.omitted] := by
  refine fun s ahead page => .sees fun _ _ => .ite (fun _ => .map ?_) fun _ => .pure ?_ rfl
  · refine .next fun colon rest _ => .expectName fun name rest _ => .pure rfl ?_
    simp [Leaf.omitted]
  · simp

/-- Texts one after another are put down before comments wait or behind. -/
@[simp] theorem layAll_texts_queueAll (p : Page) (notes texts : List String) :
    (p.queueAll notes).layAll (texts.flatMap textItem) =
      (p.layAll (texts.flatMap textItem)).queueAll notes := by
  induction texts generalizing p with
  | nil => rfl
  | cons text texts ih => simp [bare_textItem text p notes, ih]

/-- Words after separators are what is put down at once when their comments wait already. -/
theorem layAll_parts (separator : String) (more : List (Leaf × Leaf)) (p : Page) :
    p.layAll (more.flatMap fun x =>
        [.word separator x.1.remarks, .word x.2.token.text x.2.remarks]) =
      (p.layAll ((more.flatMap fun x => [separator, x.2.token.text]).flatMap textItem)).queueAll
        (remarksOf more) := by
  induction more generalizing p with
  | nil => simp [remarksOf]
  | cons x more ih =>
    rw [List.flatMap_cons, Page.layAll_append, ih]
    simp [remarksOf]

/-- The path of a function is gathered and put down at once. -/
theorem function_draws (h : r.Agrees q) (indent : Int) :
    Draws (function r indent) (Parser.function q) Stat.declaresFunction
      fun groups stat => stat.layout groups indent := by
  refine fun s ahead page => .next fun word rest _ => .expectName fun name rest _ => ?_
  refine .draw (loop_draws nextPart_draws [name.token.text]) fun path rest _ => ?_
  refine .draw (methodName_draws _) fun method rest _ => .lay (.lay ?_)
  refine .writes (writeAll_writes _) (.draw (body_draws h indent) fun body rest _ => .pure rfl ?_)
  simp [Stat.layout, gather_eq_flatMap, ← List.flatMap_def, layAll_parts, Leaf.word, Leaf.wordAs,
    Page.lay]

/-- A local name as it is gathered. -/
def markedOf (n : LocalName) : Marked := ⟨n.name.token.text, n.mark.map (·.word.token.text)⟩

/-- The items of a local name as it is gathered. -/
def Marked.items (n : Marked) : List Item :=
  match n.mark with
  | none => textItem n.name
  | some word => textItem n.name ++ .space :: textItem "<" ++ textItem word ++ textItem ">"

theorem put_writes (n : Marked) : Writes n.put n.items := by
  obtain ⟨name, mark⟩ := n
  cases mark with
  | none => exact write_writes name
  | some word =>
    exact (write_writes name).then (space_writes.then ((write_writes "<").then
      ((write_writes word).then (write_writes ">"))))

theorem bare_items (n : Marked) : Bare n.items := by
  obtain ⟨name, mark⟩ := n
  intro p notes
  cases mark with
  | none => simp [Marked.items]
  | some word => simp [Marked.items]

/-- A local name looks the same when it is put down at once and its comments wait. -/
theorem layAll_layout (n : LocalName) (p : Page) :
    p.layAll n.layout = (p.layAll (markedOf n).items).queueAll n.remarks := by
  obtain ⟨name, mark⟩ := n
  cases mark with
  | none => simp [LocalName.layout, LocalName.markLayout, LocalName.remarks, markedOf,
      Marked.items, Leaf.word]
  | some m => simp [LocalName.layout, LocalName.markLayout, LocalName.remarks, markedOf,
      Marked.items, Leaf.word, Leaf.wordAs]

theorem layAll_omitted (n : LocalName) (p : Page) :
    p.layAll n.omitted = p.queueAll n.remarks := by
  obtain ⟨name, mark⟩ := n
  cases mark with
  | none => simp [LocalName.omitted, LocalName.remarks, Leaf.omitted]
  | some m => simp [LocalName.omitted, LocalName.remarks, Leaf.omitted]

/-- A local name is gathered with the word of its mark. -/
theorem localName_draws :
    Draws localName Parser.localName markedOf fun _ n => n.omitted := by
  refine fun s ahead page => .call (.expectName fun name rest _ => .parserAssoc (.sees fun b _ => ?_))
  cases b with
  | true =>
    refine .parserMap (.parserAssoc (.next fun opening rest _ => .parserAssoc ?_))
    refine .expectName fun word rest _ => .parserAssoc (.expect fun closing rest _ => ?_)
    refine .parserPureBind (.pure rfl ?_)
    simp [layAll_omitted, LocalName.remarks]
  | false =>
    refine .parserPureBind (.pure rfl ?_)
    simp [layAll_omitted, LocalName.remarks]

theorem nextLocalName_draws (names : List Marked) :
    Draws (nextLocalName names) (Parser.ifSees "," (Parser.nextThen Parser.localName))
      (stepOf (fun names p => names ++ [markedOf p.2]) names)
      (itemsOf (fun _ _ p => p.1.omitted :: p.2.omitted) names) := by
  refine fun s ahead page => .sees fun _ _ => .ite (fun _ => .map ?_) fun _ => .pure rfl rfl
  refine .next fun comma rest _ => .draw localName_draws fun name rest _ => .pure rfl ?_
  simp [itemsOf, Leaf.omitted]

theorem layAll_omittedNames (p : Page) (more : List (Leaf × LocalName)) :
    p.layAll (more.flatMap fun x => x.1.omitted :: x.2.omitted) =
      p.queueAll (more.flatMap fun x => x.1.remarks ++ x.2.remarks) := by
  induction more generalizing p with
  | nil => simp
  | cons x more ih =>
    rw [List.flatMap_cons, Page.layAll_append, ih]
    simp [Leaf.omitted, layAll_omitted]

@[simp] theorem layAll_separatedNames_queueAll (p : Page) (notes : List String)
    (names : List Marked) : (p.queueAll notes).layAll (separatedItems Marked.items names) =
      (p.layAll (separatedItems Marked.items names)).queueAll notes :=
  bare_separated bare_items names p notes

/-- So do local names with commas between them. -/
theorem layAll_moreLayout (first : LocalName) (more : List (Leaf × LocalName)) (p : Page) :
    (p.layAll first.layout).layAll (LocalName.moreLayout more) =
      (p.layAll (separatedItems Marked.items
        (markedOf first :: more.map fun x => markedOf x.2))).queueAll
        (first.remarks ++ more.flatMap fun x => x.1.remarks ++ x.2.remarks) := by
  rw [← Page.layAll_append]
  exact layAll_gathered Marked.items markedOf LocalName.layout LocalName.remarks bare_items
    layAll_layout first more p

theorem values_draws (h : r.Agrees q) (indent : Int) :
    Draws (values r indent) (Parser.ifSees "=" (Parser.nextThen (Parser.expressions q)))
      (fun _ => ()) fun groups o => o.toList.flatMap fun x =>
        .space :: x.1.wordAs "=" :: .space :: x.2.layout groups indent := by
  refine fun s ahead page => .sees fun _ _ => .ite (fun _ => .map ?_) fun _ => .pure rfl rfl
  refine .next fun equals rest _ => .lay (.lay (.lay ?_))
  refine .drawLast (expressions_draws h indent) (fun _ => rfl) fun values => ?_
  simp [Leaf.wordAs, Page.lay]

/-- The names are gathered before the first of them is put down, and values come behind. -/
theorem localNames_draws (h : r.Agrees q) (indent : Int) :
    Draws (localNames r indent) (Parser.localNames q) Stat.declaresFunction
      fun groups stat => stat.layout groups indent := by
  refine fun s ahead page => .next fun word rest _ => .sees fun b _ => .ite (fun _ => ?_) fun _ => ?_
  · refine .next fun function rest _ => .expectName fun name rest _ => ?_
    refine .lay (.lay (.lay (.lay (.lay ?_))))
    refine .draw (body_draws h indent) fun body rest _ => .pure rfl ?_
    simp [Stat.layout, Leaf.word, Leaf.wordAs, Page.lay]
  · refine .draw localName_draws fun first rest _ => ?_
    refine .draw (loop_draws nextLocalName_draws [markedOf first]) fun more rest _ => .lay (.lay ?_)
    refine .writes (separated_writes put_writes _) ?_
    refine .draw (values_draws h indent) fun values rest _ => .pure rfl ?_
    cases values with
    | none =>
      simp [Stat.layout, layAll_omitted, gather_eq_flatMap, layAll_omittedNames, layAll_moreLayout,
        flatten_singletons, Leaf.wordAs, Page.lay]
    | some values =>
      simp [Stat.layout, layAll_omitted, gather_eq_flatMap, layAll_omittedNames, layAll_moreLayout,
        flatten_singletons, Leaf.wordAs, Page.lay]

/-! ## 5. Assignments and calls -/

theorem ifSees_eq {α : Type} (text : String) (p : Parser α) (ahead : List Leaf) :
    Parser.ifSees text p ahead =
      (if Parser.hasTextAt 0 text ahead = true then some <$> p else pure none : Parser _) ahead := rfl

/-- Renderer and parser complain of a target that cannot be assigned to. -/
theorem assignable_matches {α β γ : Type} {start : Option Token} {path : Access} {w : Renderer γ}
    {f : γ → Renderer β} {g : Unit → Parser α} {value : α → β} {out : α → Page}
    (h : path.kind = .assignable → Matches s ahead page (w >>= f) (g ()) value out) :
    Matches s ahead page ((if path.kind = .assignable then w else failNear .malformed start) >>= f)
      (Parser.requireAssignable start path >>= g) value out := by
  unfold Parser.requireAssignable
  by_cases hkind : path.kind = .assignable
  · rw [if_pos hkind, if_pos hkind]
    exact h hkind
  · rw [if_neg hkind, if_neg hkind]
    cases start with
    | none => rfl
    | some t => rfl

/-- Behind a target: whether it can be assigned to is asked by the round of the renderer that
follows it, and by the parser at once. -/
theorem targets_matches (h : r.Agrees q) (indent : Int) {α β : Type} {value : α → β}
    {out : α → Page} {w : Target → Renderer β} (parserBound : List Leaf) {bound : List Leaf}
    {start : Option Token} {path : Access} {k : List (Leaf × Access) → Parser α}
    (hbound : ahead.length ≤ bound.length) (hparser : ahead.length ≤ parserBound.length)
    (hk : ∀ more rest last,
      Matches s rest (page.layAll (commaAccessesLayout s.style.groups indent more)) (w last) (k more)
        value out) :
    Matches s ahead page
      (nextTarget r indent ⟨start, path.kind⟩ >>= fun x =>
        onward (nextTarget r indent) bound x >>= w)
      (Parser.requireAssignable start path >>= fun _ =>
        Parser.manyAlong parserBound (Parser.ifSees "," (Parser.nextThen (Parser.assignable q))) >>= k)
      value out := by
  induction parserBound generalizing ahead page bound start path k with
  | nil =>
    obtain rfl := List.eq_nil_of_length_eq_zero (Nat.le_zero.1 hparser)
    refine assignable_matches fun _ => .roundsEnd rfl (.assoc (.seesAlone ?_))
    exact .iteAlone nofun fun _ => .pureBind (.pureBind (hk [] [] _))
  | cons m parserBound ih =>
    refine assignable_matches fun _ => ?_
    have hround := ifSees_eq "," (Parser.nextThen (Parser.assignable q)) ahead
    cases hcomma : Parser.hasTextAt 0 "," ahead with
    | false =>
      rw [hcomma] at hround
      refine .roundsEnd hround (.assoc (.seesAlone ?_))
      rw [hcomma]
      exact .iteAlone nofun fun _ => .pureBind (.pureBind (hk [] ahead _))
    | true =>
      rw [hcomma] at hround
      refine .roundsOn hround (.parserAssoc (.assoc (.seesAlone ?_)))
      refine .iteAlone (fun _ => ?_) fun hno => absurd hcomma hno
      refine .assoc (.next fun comma rest hs => .assoc (.lay (.assoc (.lay (.assoc (.assoc ?_))))))
      subst hs
      obtain ⟨b, bound, rfl⟩ :=
        List.exists_cons_of_length_pos (Nat.lt_of_lt_of_le (Nat.succ_pos _) hbound)
      simp only [List.length_cons, Nat.add_le_add_iff_right] at hbound hparser
      refine .parserAssoc (.parserAssoc (.current (.assoc (.parserAssoc ?_))))
      refine .draw (access_draws h indent) fun path later hpath => ?_
      refine .pureBind (.pureBind (.goOn ?_))
      have hle := (access_draws h indent).length_le hpath
      refine .parserAssoc ?_
      simp only [pure_bind]
      refine ih (hle.trans hbound) (hle.trans hparser) fun more after last => ?_
      have hmore := hk ((comma, path) :: more) after last
      simpa [commaAccessesLayout, Leaf.wordAs, Page.lay] using hmore

/-- The check of a target takes nothing, so what is repeated behind it has the same bound. -/
theorem requireAssignable_many {α β : Type} (start : Option Token) (path : Access)
    (round : Parser (Option α)) (k : List α → Parser β) (ahead : List Leaf) :
    (Parser.requireAssignable start path >>= fun _ => Parser.many round >>= k) ahead =
      (Parser.requireAssignable start path >>= fun _ => Parser.manyAlong ahead round >>= k) ahead := by
  unfold Parser.requireAssignable
  split
  · rfl
  · rfl

theorem assignmentOrCall_draws (h : r.Agrees q) (indent : Int) :
    Draws (assignmentOrCall r indent) (Parser.assignmentOrCall q) Stat.declaresFunction
      fun groups stat => stat.layout groups indent := by
  refine fun s ahead page => .call (.assoc (.current (.assoc ?_)))
  refine .draw (access_draws h indent) fun first rest _ => .pureBind ?_
  refine .sees fun comma _ => .sees fun equals _ => .ite (fun _ => ?_) fun _ => .ite (fun _ => ?_)
    fun _ => .failNear
  · refine .loop (.parserEq (requireAssignable_many _ _ _ _ _) ?_)
    refine targets_matches h indent rest (Nat.le_refl _) (Nat.le_refl _) fun more rest last => ?_
    refine .expect fun equals rest _ => .lay (.lay (.lay ?_))
    refine .draw (expressions_draws h indent) fun values rest _ => .pure rfl ?_
    simp [Stat.layout, Leaf.wordAs, Page.lay]
  · refine .pure rfl ?_
    simp [Stat.layout]

/-! ## 6. Statements and blocks -/

/-- Every form of statement is matched to its own parser. -/
theorem statementOf_draws (h : r.Agrees q) (indent : Int) (form : StatementForm) :
    Draws (statementOf r indent form) (Parser.statementOf q form) Stat.declaresFunction
      fun groups stat => stat.layout groups indent := by
  refine fun s ahead page => .call ?_
  cases form with
  | breakLoop => exact breakLoop_draws indent s ahead page
  | goto => exact goto_draws indent s ahead page
  | label => exact label_draws indent s ahead page
  | empty => exact empty_draws indent s ahead page
  | doBlock => exact doBlock_draws h indent s ahead page
  | whileLoop => exact whileLoop_draws h indent s ahead page
  | repeatLoop => exact repeatLoop_draws h indent s ahead page
  | conditional => exact conditional_draws h indent s ahead page
  | forLoop => exact forLoop_draws h indent s ahead page
  | function => exact function_draws h indent s ahead page
  | localNames => exact localNames_draws h indent s ahead page
  | result => exact returnValues_draws h indent s ahead page

theorem statement_draws (h : r.Agrees q) (indent : Int) :
    Draws (statement r indent) (Parser.statement q) Stat.declaresFunction
      fun groups stat => stat.layout groups indent := by
  refine fun s ahead page => .call (.look (fun _ => .refuse) fun l rest _ => ?_)
  dsimp only
  cases StatementForm.ofToken? l.token with
  | some form => exact statementOf_draws h indent form s _ page
  | none => exact .ite (fun _ => .fail) fun _ => assignmentOrCall_draws h indent s _ page

/-- A round of a block begins a line, behind a blank one if the statement before it declared
a function. -/
theorem nextStatement_draws (h : r.Agrees q) (indent : Int) (blank : Bool) :
    Draws (nextStatement r indent blank) (Parser.nextStatement q)
      (stepOf (fun _ stat => stat.declaresFunction) blank)
      (itemsOf (fun groups blank stat =>
        .line indent indent blank :: stat.layout groups indent) blank) := by
  refine fun s ahead page => .look (fun _ => .pure rfl rfl) fun l rest _ => ?_
  refine .ite (fun _ => .pure rfl rfl) fun _ => .map (.lay ?_)
  refine .parserTail (.draw (statement_draws h indent) fun stat rest _ => .pure rfl ?_)
  simp [itemsOf, Page.lay]

theorem statementsLayout_eq (groups : Bool) (indent : Int) (blank : Bool) (stats : List Stat) :
    statementsLayout groups indent blank stats = gather (fun _ stat => stat.declaresFunction)
      (fun blank stat => .line indent indent blank :: stat.layout groups indent) blank stats := by
  induction stats generalizing blank with
  | nil => rfl
  | cons stat stats ih =>
    rw [gather, ← ih]
    rfl

theorem block_draws (h : r.Agrees q) (indent : Int) :
    Draws (block r indent) (Parser.block q) (fun _ => ())
      fun groups b => b.layout groups indent := by
  refine fun s ahead page => .call ?_
  refine .draw (loop_draws (nextStatement_draws h indent) false) fun stats rest _ => .pure rfl ?_
  simp [Block.layout, statementsLayout_eq]

end Renderer

end LuaLayout
