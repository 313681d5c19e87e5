/-
LuaLayout.Proofs.Session.Agreement — the methods for expressions follow their parsers.

A method is matched to its parser under the rules for expressions and blocks that both
are given: what the parser reads is what the method takes, and what its layout puts
down is what the method puts down as it goes. Where a loop is cut as the repetition of
the parser is, the rule for loops does the work. The loops over parameters and over the
fields of a table are cut elsewhere: they decide behind an item whether another one
follows, and the parsers before it. There the two are followed together along the
leaves ahead.
-/
import LuaLayout.Proofs.Session.Matching

namespace LuaLayout

namespace Renderer

variable {s : Session} {ahead : List Leaf} {page : Page} {r : Rules} {q : LuaLayout.Rules}

/-- The methods put down what the parsers read, and the parser for expressions gives
what begins with the next token. -/
structure Rules.Agrees (r : Rules) (q : LuaLayout.Rules) : Prop where
  expression : ∀ indent limit, Draws (r.expression indent limit) (q.expression limit) (fun _ => ())
    fun groups e => e.layout groups indent
  block : ∀ indent, Draws (r.block indent) q.block (fun _ => ())
    fun groups b => b.layout groups indent
  head : ∀ limit ahead e rest, q.expression limit ahead = .ok (e, rest) →
    Parser.tokenAt 0 ahead = some e.head.token

/-! ## 1. Expressions after each other -/

/-- A round of operators: the operator and its operand are put down with spaces before each. -/
theorem operation_draws (h : r.Agrees q) (indent limit : Int) :
    Draws (operation r indent limit) (Parser.operation q limit)
      (stepOf (fun _ _ => ()) ()) (itemsOf (fun groups _ p =>
        .space :: p.1.word :: .space :: p.2.layout groups indent) ()) := by
  intro s ahead page
  refine .look (fun _ => .pure rfl rfl) fun l rest _ => ?_
  simp only [Option.bind_some]
  cases Parser.continuing? limit l.token with
  | none => exact .pure rfl rfl
  | some powers =>
    refine .map (.nextOf (.lay (.lay (.lay ?_))))
    refine .draw (h.expression indent powers.right) fun e rest _ => .pure rfl ?_
    simp [itemsOf, Leaf.word, Page.lay]

theorem operationsLayout_eq (groups : Bool) (indent : Int) (more : List (Leaf × Expr)) :
    operationsLayout groups indent more = gather (fun _ _ => ()) (fun _ p =>
        .space :: p.1.word :: .space :: p.2.layout groups indent) () more := by
  induction more with
  | nil => rfl
  | cons p more ih =>
    rw [gather, ← ih]
    rfl

theorem nextExpression_draws (h : r.Agrees q) (indent : Int) :
    Draws (nextExpression r indent)
      (Parser.ifSees "," (Parser.nextThen (q.expression 0)))
      (stepOf (fun _ _ => ()) ()) (itemsOf (fun groups _ p =>
        p.1.wordAs "," :: .space :: p.2.layout groups indent) ()) := by
  refine fun s ahead page => .sees fun _ _ => .ite (fun _ => ?_) fun _ => .pure rfl rfl
  refine .map (.next fun l rest _ => .lay (.lay ?_))
  refine .draw (h.expression indent 0) fun e rest _ => .pure rfl ?_
  simp [itemsOf, Leaf.wordAs, Page.lay]

theorem commaExprsLayout_eq (groups : Bool) (indent : Int) (more : List (Leaf × Expr)) :
    commaExprsLayout groups indent more = gather (fun _ _ => ()) (fun _ p =>
        p.1.wordAs "," :: .space :: p.2.layout groups indent) () more := by
  induction more with
  | nil => rfl
  | cons p more ih =>
    rw [gather, ← ih]
    rfl

theorem expressions_draws (h : r.Agrees q) (indent : Int) :
    Draws (expressions r indent) (Parser.expressions q) (fun _ => ())
      fun groups es => es.layout groups indent := by
  refine fun s ahead page => .call (.draw (h.expression indent 0) fun e rest _ => ?_)
  refine .drawLast (loop_draws (fun _ => nextExpression_draws h indent) ()) (fun _ => rfl)
    fun more => ?_
  simp [Exprs.layout, commaExprsLayout_eq]

/-! ## 2. Tables -/

/-- The token keeps apart from an opening bracket before it. -/
def startsLongString (t : Token) : Bool := t.kind == .string && t.startsWith '['

theorem Matches.openIndex {α β : Type} {p : Parser α} {value : α → β} {out : α → Page}
    {f : Bool → Renderer β}
    (h : ∀ apart, (Parser.tokenAt 0 ahead).any startsLongString = apart →
      Matches s ahead (page.layAll (.word "[" [] :: spaceIf apart)) (f apart) p value out) :
    Matches s ahead page (openIndex >>= f) p value out :=
  .callBind (.assoc (.currentAlone (.assoc (.lay (.assoc (.spaceWhere (.pureBind (h _ rfl))))))))

/-- A long string that was found ahead begins the key that is read. -/
theorem Rules.Agrees.apart_eq (h : r.Agrees q) {limit : Int} {rest : List Leaf} {e : Expr}
    {apart : Bool} (hread : q.expression limit ahead = .ok (e, rest))
    (hapart : (Parser.tokenAt 0 ahead).any startsLongString = apart) :
    e.startsWithLongString = apart := by
  rw [← hapart, h.head _ _ _ _ hread]
  rfl

/-- The kind of a field is decided from the same two tokens. -/
theorem field_draws (h : r.Agrees q) (indent : Int) :
    Draws (field r indent) (Parser.field q) (fun _ => ()) fun groups f => f.layout groups indent := by
  refine fun s ahead page => .call (.look (fun _ => .fail) fun l rest _ =>
    .ite (fun _ => ?_) fun _ => .seesSecond fun b _ => .ite (fun _ => ?_) fun _ => ?_)
  · refine .nextOf (.openIndex fun apart hapart => ?_)
    refine .draw (h.expression indent 0) fun key rest hkey => ?_
    obtain rfl := h.apart_eq hkey hapart
    refine .expect fun closing rest _ => .expect fun equals rest _ => ?_
    refine .spaceWhere (.lay (.lay (.lay (.lay ?_))))
    refine .drawLast (h.expression indent 0) (fun _ => rfl) fun e => ?_
    simp [Field.layout, Leaf.wordAs, Page.lay]
  · refine .nextOf (.next fun equals rest _ => .lay (.lay (.lay (.lay ?_))))
    refine .drawLast (h.expression indent 0) (fun _ => rfl) fun e => ?_
    simp [Field.layout, Leaf.wordAs, Leaf.word, Page.lay]
  · exact .drawLast (h.expression indent 0) (fun _ => rfl) fun e => rfl

theorem closeTable_draws (indent : Int) :
    Draws (closeTable indent) (Parser.expect "\x7d") (fun _ => ())
      fun _ l => [closingLine indent, l.wordAs "\x7d"] := by
  refine fun s ahead page => .parserTail (.lay (.expect fun l rest _ => .tail (.lay (.pure rfl ?_))))
  simp [Page.lay, closingLine, Leaf.wordAs]

/-- A separator may stand before the closing brace. -/
def tableEnd {γ : Type} (f : Option Leaf → Leaf → γ) : Parser γ := do
  let trailing ← if ← Parser.seesSeparator then some <$> Parser.next else pure none
  return f trailing (← Parser.expect "\x7d")

/-- Behind the last field, a separator may stand before the closing brace. -/
theorem separator_last {γ : Type} {f : Option Leaf → Leaf → γ} {out : γ → Page}
    {step : Unit → Renderer (ForInStep Unit)} {bound : List Leaf} {indent : Int}
    (hlast : ((Parser.hasTextAt 0 "," ahead || Parser.hasTextAt 0 ";" ahead) &&
      !Parser.hasTextAt 1 "\x7d" ahead) = false)
    (hpage : ∀ trailing closing, page.layAll (trailing.toList.map Leaf.omitted ++
      [closingLine indent, closing.wordAs "\x7d"]) = out (f trailing closing)) :
    Matches s ahead page (separator >>= fun x => onward step bound x >>= fun _ => closeTable indent)
      (tableEnd f) (fun _ => ()) out := by
  refine .assoc (.seesAlone (.assoc (.seesAlone (.parserSeesSeparator ?_))))
  refine .iteAlone (fun hsep => ?_) fun hsep => ?_
  · rw [hsep]
    refine .parserMap (.assoc (.next fun l rest hs => .assoc (.seesAlone ?_)))
    rw [hsep, hs, Parser.hasTextAt_one_cons] at hlast
    have hclose : Parser.hasTextAt 0 "\x7d" rest = true := by simpa using hlast
    refine .iteAlone (fun _ => .pureBind (.pureBind ?_)) fun h => absurd hclose h
    exact .drawLast (closeTable_draws indent) (fun _ => rfl) fun closing => hpage (some l) closing
  · rw [Bool.eq_false_iff.2 hsep]
    refine .parserPureBind (.assoc (.seesAlone (.iteAlone (fun _ => .pureBind (.pureBind ?_))
      fun hclose => .failExpected hclose)))
    exact .drawLast (closeTable_draws indent) (fun _ => rfl) fun closing => hpage none closing

theorem nextField_eq (q : LuaLayout.Rules) (ahead : List Leaf) :
    Parser.nextField q ahead =
      (if ((Parser.hasTextAt 0 "," ahead || Parser.hasTextAt 0 ";" ahead) &&
          !Parser.hasTextAt 1 "\x7d" ahead) = true
        then some <$> Parser.nextThen (Parser.field q) else pure none : Parser _) ahead := rfl

/-- Behind a field, to the closing brace: the parser decides before a separator whether
another field follows, and the renderer behind it. -/
theorem fields_matches (h : r.Agrees q) (indent : Int) {γ : Type} {out : γ → Page}
    (parserBound : List Leaf) {bound : List Leaf} {f : List (Leaf × Field) → Option Leaf → Leaf → γ}
    (hbound : ahead.length ≤ bound.length) (hparser : ahead.length ≤ parserBound.length)
    (hpage : ∀ more trailing closing, page.layAll
      (commaFieldsLayout s.style.groups (indent + indentStep) more ++
        trailing.toList.map Leaf.omitted ++ [closingLine indent, closing.wordAs "\x7d"]) =
      out (f more trailing closing)) :
    Matches s ahead page
      (separator >>= fun x => onward (fun _ => nextField r (indent + indentStep)) bound x >>=
        fun _ => closeTable indent)
      (Parser.manyAlong parserBound (Parser.nextField q) >>= fun more => tableEnd (f more))
      (fun _ => ()) out := by
  induction parserBound generalizing ahead page bound f with
  | nil =>
    obtain rfl := List.eq_nil_of_length_eq_zero (Nat.le_zero.1 hparser)
    exact .roundsEnd rfl (separator_last rfl fun trailing closing => hpage [] trailing closing)
  | cons m parserBound ih =>
    have hround := nextField_eq q ahead
    cases hmore : (Parser.hasTextAt 0 "," ahead || Parser.hasTextAt 0 ";" ahead) &&
      !Parser.hasTextAt 1 "\x7d" ahead with
    | false =>
      rw [hmore] at hround
      exact .roundsEnd hround (separator_last hmore fun trailing closing => hpage [] trailing closing)
    | true =>
      rw [hmore] at hround
      obtain ⟨hsep, hopen⟩ := Bool.and_eq_true_iff.1 hmore
      refine .roundsOn hround (.parserAssoc (.assoc (.seesAlone (.assoc (.seesAlone ?_)))))
      refine .iteAlone (fun _ => ?_) fun hno => absurd hsep hno
      refine .assoc (.next fun l rest hs => .assoc (.seesAlone ?_))
      subst hs
      rw [Parser.hasTextAt_one_cons, Bool.not_eq_true'] at hopen
      refine .iteAlone (fun hclose => absurd hclose (Bool.eq_false_iff.1 hopen)) fun _ => ?_
      refine .assoc (.lay (.pureBind ?_))
      obtain ⟨b, bound, rfl⟩ :=
        List.exists_cons_of_length_pos (Nat.lt_of_lt_of_le (Nat.succ_pos _) hbound)
      simp only [List.length_cons, Nat.add_le_add_iff_right] at hbound hparser
      refine .goOn (.assoc (.lay (.assoc (.parserAssoc ?_))))
      refine .draw (field_draws h _) fun field later hfield => .parserPureBind ?_
      have hle := (field_draws h (indent + indentStep)).length_le hfield
      refine ih (hle.trans hbound) (hle.trans hparser) fun more trailing closing => ?_
      rw [← hpage]
      simp [Page.lay, commaFieldsLayout, Leaf.wordAs, newLine]

/-- Between its braces a table begins a line for each field, and one for the closing brace. -/
theorem table_draws (h : r.Agrees q) (indent : Int) :
    Draws (table r indent) (Parser.table q) (fun _ => ()) fun groups t => t.layout groups indent := by
  refine fun s ahead page => .call (.expect fun opening rest _ =>
    .sees fun _ _ => .ite (fun _ => ?_) fun _ => ?_)
  · refine .next fun closing rest _ => .lay (.tail (.lay (.pure rfl ?_)))
    simp [Table.layout, Leaf.wordAs, Page.lay]
  · refine .lay (.loop (.assoc (.lay (.assoc ?_))))
    refine .draw (field_draws h _) fun f rest hf => .rounds ?_
    have hle := (field_draws h (indent + indentStep)).length_le hf
    refine fields_matches h indent _ hle (Nat.le_refl _) fun more trailing closing => ?_
    simp [Table.layout, Leaf.wordAs, Page.lay, newLine]

/-! ## 3. Functions -/

theorem closeBlock_draws (indent : Int) (word : String) :
    Draws (closeBlock indent word) (Parser.expect word) (fun _ => ())
      fun _ l => LuaLayout.closeBlock indent word l := by
  refine fun s ahead page => .call (.parserTail (.lay (.expect fun l rest _ => ?_)))
  refine .tail (.lay (.pure rfl ?_))
  simp [Page.lay, LuaLayout.closeBlock, closingLine, Leaf.wordAs]

theorem closeParameters_matches {names : List String} {γ : Type} {f : Leaf → γ} {out : γ → Page}
    (hpage : ∀ closing : Leaf, (((page.queueAll closing.remarks).put (.text "(")).layAll
      (separatedItems textItem names)).put (.text ")") = out (f closing)) :
    Matches s ahead page (closeParameters names)
      (Parser.expect ")" >>= fun closing => pure (f closing)) (fun _ => ()) out := by
  refine .expect fun closing rest _ => .lay (.writes (separated_writes write_writes names) ?_)
  refine .tail (.lay (.pure rfl ?_))
  rw [← hpage]
  simp [Page.lay]

theorem nextParameter_eq (ahead : List Leaf) :
    Parser.nextParameter ahead =
      (if (Parser.hasTextAt 0 "," ahead &&
          !(Parser.tokenAt 1 ahead).any Parser.isEllipsis) = true
        then some <$> Parser.nextThen Parser.expectName else pure none : Parser _) ahead := rfl

/-- The comments of leaves with a comma before each. -/
def remarksOf (more : List (Leaf × Leaf)) : List String :=
  more.flatMap fun p => p.1.remarks ++ p.2.remarks

/-- Behind a name, to the closing bracket: an ellipsis belongs to the round of the renderer
that follows the comma, and to none of the parser. -/
theorem parameters_matches {γ : Type} {out : γ → Page} (parserBound : List Leaf)
    {bound : List Leaf} {names : List String} {f : List (Leaf × Leaf) → Leaf → γ}
    (hbound : ahead.length ≤ bound.length) (hparser : ahead.length ≤ parserBound.length)
    (hpage : ∀ more closing, (((page.queueAll (remarksOf more ++ closing.remarks)).put
      (.text "(")).layAll (separatedItems textItem (names ++ more.map (·.2.token.text)))).put
        (.text ")") = out (f more closing)) :
    Matches s ahead page
      (parameterComma names >>= fun x => onward nextParameter bound x >>= closeParameters)
      (Parser.manyAlong parserBound Parser.nextParameter >>= fun more =>
        Parser.ifSees "," (Parser.nextThen Parser.next) >>= fun last =>
          Parser.expect ")" >>= fun closing => pure (f (more ++ last.toList) closing))
      (fun _ => ()) out := by
  induction parserBound generalizing ahead page bound names f with
  | nil =>
    obtain rfl := List.eq_nil_of_length_eq_zero (Nat.le_zero.1 hparser)
    refine .roundsEnd rfl (.parserAssoc (.parserSees (.parserPureBind (.assoc (.seesAlone ?_)))))
    refine .iteAlone nofun fun _ => .pureBind (.pureBind (closeParameters_matches fun closing => ?_))
    simpa [remarksOf] using hpage [] closing
  | cons m parserBound ih =>
    have hround := nextParameter_eq ahead
    cases hcomma : Parser.hasTextAt 0 "," ahead with
    | false =>
      rw [hcomma] at hround
      refine .roundsEnd hround (.parserAssoc (.parserSees (.assoc (.seesAlone ?_))))
      rw [hcomma]
      refine .parserPureBind (.iteAlone nofun fun _ => .pureBind (.pureBind ?_))
      refine closeParameters_matches fun closing => ?_
      simpa [remarksOf] using hpage [] closing
    | true =>
      obtain ⟨comma, rest, rfl⟩ : ∃ comma rest, ahead = comma :: rest := by
        cases ahead with
        | nil => cases hcomma
        | cons comma rest => exact ⟨comma, rest, rfl⟩
      obtain ⟨b, bound, rfl⟩ :=
        List.exists_cons_of_length_pos (Nat.lt_of_lt_of_le (Nat.succ_pos _) hbound)
      simp only [List.length_cons, Nat.add_le_add_iff_right] at hbound hparser
      rw [hcomma, Parser.tokenAt_one_cons] at hround
      cases hlast : (Parser.tokenAt 0 rest).any Parser.isEllipsis with
      | true =>
        rw [hlast] at hround
        refine .roundsEnd hround (.parserAssoc (.parserSees (.assoc (.seesAlone ?_))))
        rw [hcomma]
        refine .iteAlone (fun _ => ?_) fun h => absurd rfl h
        refine .parserMap (.parserAssoc (.assoc (.nextOf (.pureBind (.goOn ?_)))))
        refine .assoc (.currentAlone (.iteAlone (fun _ => ?_) fun h => absurd hlast h))
        refine .parserAssoc (.assoc (.next fun last rest _ => .pureBind (.pureBind ?_)))
        refine .parserPureBind (closeParameters_matches fun closing => ?_)
        simpa [remarksOf] using hpage [(comma, last)] closing
      | false =>
        rw [hlast] at hround
        refine .roundsOn hround (.assoc (.seesAlone ?_))
        refine .iteAlone (fun _ => ?_) fun h => absurd hcomma h
        refine .parserAssoc (.assoc (.nextOf (.pureBind (.goOn ?_))))
        refine .assoc (.currentAlone (.iteAlone (fun h => ?_) fun _ => ?_))
        · rw [hlast] at h
          cases h
        · refine .parserAssoc (.assoc (.expectName fun name later hname => .parserPureBind ?_))
          have hle := expectName_draws.length_le hname
          refine ih (f := fun more => f ((comma, name) :: more)) (hle.trans hbound)
            (hle.trans hparser) fun more closing => ?_
          rw [← hpage]
          simp [remarksOf]

/-- Names look the same when all of them are put down at once and their comments wait. -/
theorem layAll_commaNames (first : Leaf) (more : List (Leaf × Leaf)) (items : List Item) (p : Page) :
    p.layAll (first.word :: (commaNames more ++ items)) =
      ((p.layAll (separatedItems textItem (first.token.text :: more.map (·.2.token.text)))).queueAll
        (first.remarks ++ remarksOf more)).layAll items := by
  have hnames := layAll_gathered textItem (fun l : Leaf => l.token.text) (fun l => [l.word])
    Leaf.remarks bare_textItem (fun l p => by simp [textItem, Leaf.word]) first more p
  rw [← List.cons_append, Page.layAll_append]
  exact congrArg (Page.layAll · items) hnames

/-- The names are gathered up to the closing bracket and put down between both. -/
theorem parameters_draws :
    Draws parameters Parser.parameters (fun _ => ()) fun _ p => p.layout := by
  refine fun s ahead page => .call (.expect fun opening rest _ => .assoc (.sees fun b _ => ?_))
  cases b with
  | true =>
    refine .pureBind (closeParameters_matches fun closing => ?_)
    simp [Parameters.layout, separatedItems, Leaf.wordAs]
  | false =>
    refine .loop (.assoc (.currentIs ?_))
    cases (Parser.tokenAt 0 rest).any Parser.isEllipsis with
    | true =>
      refine .assoc (.next fun last later _ => .pureBind (.pureBind ?_))
      refine closeParameters_matches fun closing => ?_
      simp [Parameters.layout, commaNames, separatedItems, Leaf.wordAs, Leaf.word, textItem]
    | false =>
      refine .assoc (.expectName fun first later hfirst => .rounds ?_)
      have hle := expectName_draws.length_le hfirst
      refine parameters_matches _ hle (Nat.le_refl _) fun more closing => ?_
      simp [Parameters.layout, layAll_commaNames, Leaf.wordAs]

theorem body_draws (h : r.Agrees q) (indent : Int) :
    Draws (body r indent) (Parser.body q) (fun _ => ()) fun groups b => b.layout groups indent := by
  refine fun s ahead page => .call (.draw parameters_draws fun parameters rest _ => ?_)
  refine .draw (h.block _) fun block rest _ => ?_
  refine .drawLast (closeBlock_draws indent "end") (fun _ => rfl) fun closing => ?_
  simp [Body.layout]

/-! ## 4. Operands -/

theorem root_draws (h : r.Agrees q) (indent : Int) :
    Draws (root r indent) (Parser.root q) Root.kind fun groups root => root.layout groups indent := by
  refine fun s ahead page => .look (fun _ => .fail) fun l rest _ =>
    .ite (fun _ => ?_) fun _ => .ite (fun _ => ?_) fun _ => .fail
  · refine .nextOf (.lay (.draw (h.expression indent 0) fun inner rest _ => ?_))
    refine .expect fun closing rest _ => .lay (.pure rfl ?_)
    simp [Root.layout, Leaf.wordAs, Page.lay]
  · refine .nextOf (.lay (.pure rfl ?_))
    simp [Root.layout, Leaf.word, Page.lay]

/-- A round of an access: the kind that the last suffix has is what the loop carries. -/
theorem suffix_draws (h : r.Agrees q) (indent : Int) (kind : AccessKind) :
    Draws (suffix r indent kind) (Parser.suffix q) (stepOf (fun _ x => x.kind) kind)
      (itemsOf (fun groups _ x => x.layout groups indent) kind) := by
  refine fun s ahead page => .look (fun _ => .pure rfl rfl) fun l rest _ =>
    .ite (fun _ => ?text) fun _ => .ite (fun _ => ?member) fun _ => .ite (fun _ => ?index) fun _ =>
      .ite (fun _ => ?table) fun _ => .ite (fun _ => ?call) fun _ => .pure rfl rfl
  case text =>
    refine .nextOf (.lay (.lay (.pure rfl ?_)))
    simp [itemsOf, Suffix.layout, Leaf.word, Page.lay]
  case member =>
    refine .nextOf (.expectName fun name rest _ => .lay (.lay (.pure rfl ?_)))
    simp [itemsOf, Suffix.layout, Leaf.word, Page.lay]
  case index =>
    refine .nextOf (.openIndex fun apart hapart => ?_)
    refine .draw (h.expression indent 0) fun key rest hkey => ?_
    obtain rfl := h.apart_eq hkey hapart
    refine .expect fun closing rest _ => .spaceWhere (.lay (.pure rfl ?_))
    simp [itemsOf, Suffix.layout, Leaf.wordAs, Page.lay]
  case table =>
    refine .draw (table_draws h indent) fun fields rest _ => .pure rfl ?_
    simp [itemsOf, Suffix.layout]
  case call =>
    refine .nextOf (.lay (.assoc (.sees fun b _ => ?_)))
    cases b with
    | true =>
      refine .pureBind (.expect fun closing rest _ => .lay (.pure rfl ?_))
      simp [itemsOf, Suffix.layout, Leaf.wordAs, Page.lay]
    | false =>
      refine .draw (expressions_draws h indent) fun arguments rest _ => ?_
      refine .expect fun closing rest _ => .lay (.pure rfl ?_)
      simp [itemsOf, Suffix.layout, Leaf.wordAs, Page.lay]

theorem suffixesLayout_eq (groups : Bool) (indent : Int) (kind : AccessKind)
    (suffixes : List Suffix) : suffixesLayout groups indent suffixes =
      gather (fun _ x => x.kind) (fun _ x => x.layout groups indent) kind suffixes := by
  induction suffixes generalizing kind with
  | nil => rfl
  | cons x suffixes ih =>
    rw [gather, ← ih]
    rfl

/-- The last suffix decides how an access ends. -/
theorem foldl_kind (kind : AccessKind) (suffixes : List Suffix) :
    suffixes.foldl (fun _ x => x.kind) kind = (suffixes.getLast?.map Suffix.kind).getD kind := by
  induction suffixes generalizing kind with
  | nil => rfl
  | cons x suffixes ih =>
    rw [List.foldl_cons, ih, List.getLast?_cons]
    cases suffixes.getLast? with
    | none => rfl
    | some y => rfl

/-- The kind of an access is that of its last suffix, or of its root where it has none. -/
theorem access_draws (h : r.Agrees q) (indent : Int) :
    Draws (access r indent) (Parser.access q) Access.kind
      fun groups path => path.layout groups indent := by
  refine fun s ahead page => .call (.draw (root_draws h indent) fun root rest _ => ?_)
  refine .drawLast (loop_draws (suffix_draws h indent) root.kind) (foldl_kind root.kind)
    fun suffixes => ?_
  simp [Access.layout, suffixesLayout_eq _ _ root.kind]

theorem operand_draws (h : r.Agrees q) (indent : Int) :
    Draws (operand r indent) (Parser.simple q) (fun _ => ())
      fun groups o => o.layout groups indent := by
  refine fun s ahead page => .call (.look (fun _ => .refuse) fun l rest _ =>
    .ite (fun _ => ?literal) fun _ => .ite (fun _ => ?table) fun _ => .ite (fun _ => ?function)
      fun _ => ?access)
  case literal =>
    refine .nextOf (.tail (.lay (.pure rfl ?_)))
    simp [Operand.layout, Leaf.word, Page.lay]
  case table =>
    refine .drawLast (table_draws h indent) (fun _ => rfl) fun fields => ?_
    simp [Operand.layout]
  case function =>
    refine .nextOf (.lay (.drawLast (body_draws h indent) (fun _ => rfl) fun body => ?_))
    simp [Operand.layout, Leaf.wordAs, Page.lay]
  case access =>
    refine .draw (access_draws h indent) fun path rest _ => .pure rfl ?_
    simp [Operand.layout]

theorem firstOperand_draws (h : r.Agrees q) (indent : Int) :
    Draws (firstOperand r indent) (Parser.operand q) (fun _ => ())
      fun groups o => o.layout groups indent := by
  refine fun s ahead page => .look (fun _ => .fail) fun l rest _ =>
    .ite (fun _ => ?_) fun _ => operand_draws h indent s _ page
  refine .nextOf (.lay (.currentAlone (.spaceWhere ?_)))
  refine .tail (.draw (h.expression indent Powers.unary) fun e later he => .pure rfl ?_)
  have happart : standsApart l.token.text (Parser.tokenAt 0 rest) = unarySpace l.token.text e := by
    rw [h.head _ _ _ _ he]
    rfl
  simp [Operand.layout, Leaf.word, Page.lay, happart]

/-- Marks are put around what a method draws, where groups are shown. -/
theorem showingGroup_draws {α : Type} {w : Renderer Unit} {p : Parser α}
    {items : Bool → α → List Item} (h : Draws w p (fun _ => ()) items) :
    Draws (showingGroup w) p (fun _ => ())
      fun groups a => showGroup groups (items groups a) := by
  refine fun s ahead page => .ask ?_
  show Matches s ahead page (if s.style.groups = true then _ else _) p _ _
  cases hgroups : s.style.groups with
  | true =>
    refine .parserTail (.lay (.draw h fun a rest _ => .tail (.lay (.pure rfl ?_))))
    simp [showGroup, Page.lay, hgroups]
  | false =>
    have hplain := h s ahead page
    rw [hgroups] at hplain
    exact hplain

/-- An expression without marks around it. -/
def ungrouped (groups : Bool) (indent : Int) : Expr → List Item
  | .mk operand operations =>
    operand.layout groups indent ++ operationsLayout groups indent operations

/-- An expression is its first operand and the rounds of operators behind it. -/
theorem expression_draws (h : r.Agrees q) (indent limit : Int) :
    Draws (expression r indent limit) (Parser.expression q limit) (fun _ => ())
      fun groups e => e.layout groups indent := by
  have hlayout : (fun groups (e : Expr) => e.layout groups indent) =
      fun groups e => showGroup groups (ungrouped groups indent e) := by
    funext groups e
    cases e
    rfl
  rw [hlayout]
  have hplain : Draws (firstOperand r indent >>= fun _ => loop (fun _ => operation r indent limit) ())
      (Parser.expression q limit) (fun _ => ()) fun groups e => ungrouped groups indent e := by
    refine fun s ahead page => .draw (firstOperand_draws h indent) fun operand rest _ => ?_
    refine .drawLast (loop_draws (fun _ => operation_draws h indent limit) ()) (fun _ => rfl)
      fun operations => ?_
    simp [ungrouped, operationsLayout_eq]
  exact fun s ahead page => .call (showingGroup_draws hplain s ahead page)

end Renderer

end LuaLayout
