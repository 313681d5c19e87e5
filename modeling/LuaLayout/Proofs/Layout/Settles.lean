/-
LuaLayout.Proofs.Layout.Settles — the layout decides every token as its text does.

The items of a tree agree with its leaves: each word carries the comments of one
leaf, the words follow in the order of the leaves, and what becomes of each leaf
is its fate among the texts. The tree is followed from the front with all that
comes after it, since a fate depends on the next text; the constructs that are
open before and after a part are the same, but for a branch, which leaves open
what the next one closes.
-/
import LuaLayout.Proofs.Layout.Separators
import LuaLayout.Proofs.Tokens.Joined

namespace LuaLayout

/-! ## 1. Slots -/

namespace Item

/-- The words and what is left out, each with its comments. -/
def slots : List Item → List (Option String × List String)
  | [] => []
  | .word text remarks :: rest => (some text, remarks) :: slots rest
  | .omitted remarks :: rest => (none, remarks) :: slots rest
  | .space :: rest => slots rest
  | .line _ _ _ :: rest => slots rest

end Item

/-- The slots of the items are the fates of the leaves with their comments. -/
structure Settles (stack : List String) (leaves : List Leaf) (items : List Item) : Prop where
  remarks : (Item.slots items).map Prod.snd = leaves.map Leaf.remarks
  fates : fates stack (leaves.map (·.token.text)) = (Item.slots items).map Prod.fst

/-- The leaves do not begin with a closing brace. -/
def Unbraced (leaves : List Leaf) : Prop := ∀ l ∈ leaves.head?, l.token.text ≠ "\x7d"

namespace Settles

variable {stack : List String} {leaves : List Leaf} {items : List Item} {l : Leaf} {text : String}

theorem nil : Settles stack [] [] := ⟨rfl, rfl⟩

theorem space (h : Settles stack leaves items) : Settles stack leaves (.space :: items) :=
  ⟨h.1, h.2⟩

theorem line {indent noteIndent : Int} {blank : Bool} (h : Settles stack leaves items) :
    Settles stack leaves (.line indent noteIndent blank :: items) :=
  ⟨h.1, h.2⟩

theorem spaceIf {b : Bool} (h : Settles stack leaves items) :
    Settles stack leaves (spaceIf b ++ items) := by
  cases b with
  | false => exact h
  | true => exact h.space

/-- One more leaf in front that becomes a word. -/
theorem cons {before : List String} {word : String} (htext : l.Says text)
    (hfate : LuaLayout.fates before (text :: leaves.map (·.token.text)) =
      some word :: LuaLayout.fates stack (leaves.map (·.token.text)))
    (h : Settles stack leaves items) : Settles before (l :: leaves) (l.wordAs word :: items) where
  remarks := congrArg (l.remarks :: ·) h.remarks
  fates := by
    have hl : l.token.text = text := htext
    rw [List.map_cons, hl, hfate, h.fates]
    rfl

/-- A text that neither opens nor closes and separates nothing stays as it is. -/
theorem neutral (htext : l.Says text) (hneutral : Neutral text) (h : Settles stack leaves items) :
    Settles stack (l :: leaves) (l.wordAs text :: items) :=
  h.cons htext (fates_neutral hneutral)

/-- A text that opens a construct is followed inside of it. -/
theorem opener (htext : l.Says text) (h : Settles (text :: stack) leaves items)
    (hopens : text ∈ openers ∧ text ∉ closers := by decide) :
    Settles stack (l :: leaves) (l.wordAs text :: items) :=
  h.cons htext (fates_opener hopens.1 hopens.2)

/-- A text that closes a construct is followed outside of it, whichever was open. -/
theorem closer {top : String} (htext : l.Says text) (h : Settles stack leaves items)
    (hcloses : text ∈ closers ∧ text ∉ openers := by decide) :
    Settles (top :: stack) (l :: leaves) (l.wordAs text :: items) :=
  h.cons htext (fates_closer hcloses.1 hcloses.2)

/-- An `else` closes one construct and opens another. -/
theorem otherwise {top : String} (htext : l.Says "else") (h : Settles ("else" :: stack) leaves items) :
    Settles (top :: stack) (l :: leaves) (l.wordAs "else" :: items) :=
  h.cons htext fates_else

theorem head_ne (hnext : Unbraced leaves) :
    (leaves.map (·.token.text)).head? ≠ some "\x7d" := by
  cases leaves with
  | nil => simp
  | cons m rest => simpa using hnext m rfl

/-- A comma stays one, unless a closing brace follows. -/
theorem comma (htext : l.Says ",") (hnext : Unbraced leaves) (h : Settles stack leaves items) :
    Settles stack (l :: leaves) (l.wordAs "," :: items) :=
  h.cons htext (fates_comma (head_ne hnext))

/-- Outside of tables a semicolon stays one as well. -/
theorem semicolon (htext : l.Says ";") (hstack : stack.head? ≠ some "\x7b")
    (hnext : Unbraced leaves) (h : Settles stack leaves items) :
    Settles stack (l :: leaves) (l.wordAs ";" :: items) :=
  h.cons htext (fates_semicolon hstack (head_ne hnext))

/-- Inside of a table either separator becomes a comma. -/
theorem separator (htext : l.Says "," ∨ l.Says ";") (hnext : Unbraced leaves)
    (h : Settles ("\x7b" :: stack) leaves items) :
    Settles ("\x7b" :: stack) (l :: leaves) (l.wordAs "," :: items) := by
  rcases htext with htext | htext
  · exact h.cons htext (fates_separator (by decide) (head_ne hnext))
  · exact h.cons htext (fates_separator (by decide) (head_ne hnext))

/-- A separator before the closing brace. -/
theorem trailing {closing : Leaf} {rest : List Leaf} (htext : l.Says "," ∨ l.Says ";")
    (hclosing : closing.Says "\x7d") (h : Settles stack (closing :: rest) items) :
    Settles stack (l :: closing :: rest) (l.omitted :: items) where
  remarks := congrArg (l.remarks :: ·) h.remarks
  fates := by
    have hmem : l.token.text ∈ separators := by
      rcases htext with htext | htext <;> rw [show l.token.text = _ from htext] <;> decide
    have hhead : ((closing :: rest).map (·.token.text)).head? = some "\x7d" :=
      congrArg some hclosing
    rw [List.map_cons, fates_trailing hmem hhead, h.fates]
    rfl

end Settles

theorem Unbraced.of_neutral {l : Leaf} {rest : List Leaf} (h : Neutral l.token.text) :
    Unbraced (l :: rest) := by
  rintro m ⟨⟩ htext
  rw [htext] at h
  exact absurd h (by decide)

theorem Unbraced.of_text {l : Leaf} {rest : List Leaf} {text : String} (h : l.Says text)
    (htext : text ≠ "\x7d") : Unbraced (l :: rest) := by
  rintro m ⟨⟩ hbrace
  exact htext (h.symm.trans hbrace)

theorem Unbraced.of_front {leaves rest : List Leaf} {l : Leaf} {more : List Leaf}
    (heq : leaves = l :: more) (h : NoneOf ["\x7d"] (Leaf.front leaves none)) :
    Unbraced (leaves ++ rest) := by
  subst heq
  rintro m ⟨⟩
  simpa using h l.token rfl

theorem outside_cons {stack : List String} {top : String} (h : top ≠ "\x7b") :
    (top :: stack).head? ≠ some "\x7b" := by
  simpa using h

/-! ## 2. Parts without expressions -/

variable {version : Version} {limit : Int} {next : Option Token} {indent : Int}
  {stack : List String} {leaves : List Leaf} {items : List Item}

/-- Names after commas. The next text after a comma is a name, so no comma is dropped. -/
theorem commaNames_settles : ∀ {more : List (Leaf × Leaf)},
    (∀ p ∈ more, p.1.Says "," ∧ Neutral p.2.token.text) → Settles stack leaves items →
    Settles stack (Leaf.ofPairs Leaf.alone more ++ leaves) (commaNames more ++ items)
  | [], _, hrest => hrest
  | (_, _) :: _, h, hrest =>
    have hfirst := (List.forall_mem_cons.1 h).1
    have hmore := commaNames_settles (List.forall_mem_cons.1 h).2 hrest
    .comma hfirst.1 (.of_neutral hfirst.2) (.space (.neutral rfl hfirst.2 hmore))

theorem Leaf.NamesFit.neutral {separator : String} : ∀ {more : List (Leaf × Leaf)},
    Leaf.NamesFit separator more → AllGenuine version (Leaf.ofPairs Leaf.alone more) →
    ∀ p ∈ more, p.1.Says separator ∧ Neutral p.2.token.text
  | [], _, _ => by simp
  | (mark, name) :: more, h, hg => by
    obtain ⟨hfirst, hmore⟩ := List.forall_mem_cons.1 h
    simp only [Leaf.ofPairs, List.cons_append, AllGenuine.cons_iff, Leaf.alone,
      List.nil_append] at hg
    exact List.forall_mem_cons.2 ⟨⟨hfirst.1, hg.2.1.neutral_name hfirst.2⟩,
      Leaf.NamesFit.neutral hmore hg.2.2⟩

theorem neutral_ellipsis {l : Leaf} (h : Parser.isEllipsis l.token = true)
    (hg : l.token.Genuine version) : Neutral l.token.text := by
  simp only [Parser.isEllipsis, Bool.and_eq_true, beq_iff_eq] at h
  exact hg.neutral_constant h.1

/-- After the first parameter come names, and an ellipsis at most at the end: nothing that
opens or closes. -/
theorem Parameters.MoreFit.neutral : ∀ {more : List (Leaf × Leaf)}, MoreFit more →
    AllGenuine version (Leaf.ofPairs Leaf.alone more) →
    ∀ p ∈ more, p.1.Says "," ∧ Neutral p.2.token.text
  | [], _, _ => by simp
  | [(comma, last)], h, hg => by
    obtain ⟨-, hlast, -⟩ : _ ∧ last.token.Genuine version ∧ _ := by
      simpa [Leaf.ofPairs, AllGenuine.cons_iff] using hg
    rw [List.forall_mem_singleton]
    refine ⟨h.1, ?_⟩
    rcases h.2 with hname | hdots
    · exact hlast.neutral_name hname
    · exact neutral_ellipsis hdots hlast
  | (comma, name) :: p :: more, h, hg => by
    obtain ⟨hcomma, hname, hmore⟩ := h
    simp only [Leaf.ofPairs, List.cons_append, AllGenuine.cons_iff, Leaf.alone,
      List.nil_append] at hg
    rw [List.forall_mem_cons]
    refine ⟨⟨hcomma, hg.2.1.neutral_name hname⟩, Parameters.MoreFit.neutral hmore ?_⟩
    simpa [Leaf.ofPairs, AllGenuine.cons_iff] using hg.2.2

/-- Both brackets and all that is between them stay as they are. -/
theorem Parameters.settles {p : Parameters} (h : p.Fits) (hg : AllGenuine version p.leaves)
    (hrest : Settles stack leaves items) : Settles stack (p.leaves ++ leaves) (p.layout ++ items) := by
  cases p with
  | none opening closing => exact .neutral h.1 (by decide) (.neutral h.2 (by decide) hrest)
  | some opening first more closing =>
    obtain ⟨hopening, -, hclosing, hfirst⟩ := h
    simp only [Parameters.leaves, List.cons_append, AllGenuine.cons_iff, AllGenuine.append_iff] at hg
    obtain ⟨-, hgfirst, hgmore, -⟩ := hg
    have hneutral : Neutral first.token.text ∧ ∀ p ∈ more, p.1.Says "," ∧ Neutral p.2.token.text := by
      rcases hfirst with ⟨hdots, rfl⟩ | ⟨hname, hmore⟩
      · exact ⟨neutral_ellipsis hdots hgfirst, by simp⟩
      · exact ⟨hgfirst.neutral_name hname, hmore.neutral hgmore⟩
    have hmore : Settles stack (Leaf.ofPairs Leaf.alone more ++ closing :: leaves)
        (commaNames more ++ closing.wordAs ")" :: items) :=
      commaNames_settles hneutral.2 (.neutral hclosing (by decide) hrest)
    simp only [Parameters.leaves, Parameters.layout, List.cons_append, List.append_assoc,
      List.nil_append]
    exact .neutral hopening (by decide) (.neutral rfl hneutral.1 hmore)

/-- The mark of a local name is in angle brackets, which are not among the texts that open
and close. -/
theorem LocalName.settles {n : LocalName} (h : n.Fits next) (hg : AllGenuine version n.leaves)
    (hrest : Settles stack leaves items) : Settles stack (n.leaves ++ leaves) (n.layout ++ items) := by
  obtain ⟨name, _ | mark⟩ := n
  · exact .neutral rfl ((hg name (by simp [LocalName.leaves])).neutral_name h.1) hrest
  · obtain ⟨hname, hopening, hword, hclosing⟩ := h
    simp only [LocalName.leaves, Option.map_some, Option.getD_some, Mark.leaves,
      AllGenuine.cons_iff] at hg
    obtain ⟨hgname, -, hgword, -⟩ := hg
    exact .neutral rfl (hgname.neutral_name hname) (.space (.neutral hopening (by decide)
      (.neutral rfl (hgword.neutral_name hword) (.neutral hclosing (by decide) hrest))))

theorem LocalName.more_settles {next : Option Token} : ∀ {more : List (Leaf × LocalName)},
    MoreFit next more → AllGenuine version (Leaf.ofPairs LocalName.leaves more) →
    Settles stack leaves items →
    Settles stack (Leaf.ofPairs LocalName.leaves more ++ leaves) (moreLayout more ++ items)
  | [], _, _, hrest => hrest
  | (comma, n) :: more, h, hg, hrest => by
    obtain ⟨hcomma, hn, hmore⟩ := h
    simp only [Leaf.ofPairs, List.cons_append, AllGenuine.cons_iff, AllGenuine.append_iff] at hg
    obtain ⟨-, hgn, hgmore⟩ := hg
    have hlater := LocalName.settles hn hgn (LocalName.more_settles hmore hgmore hrest)
    simp only [Leaf.ofPairs, moreLayout, List.flatMap_cons, List.cons_append,
      List.append_assoc] at hlater ⊢
    exact .comma hcomma (.of_neutral ((hgn n.name (by simp [LocalName.leaves])).neutral_name hn.1))
      (.space hlater)

/-- Names after points or colons. -/
theorem path_settles {separator : String} (hseparator : Neutral separator) :
    ∀ {path : List (Leaf × Leaf)}, (∀ p ∈ path, p.1.Says separator ∧ Neutral p.2.token.text) →
    Settles stack leaves items →
    Settles stack (Leaf.ofPairs Leaf.alone path ++ leaves)
      (path.flatMap (fun (mark, part) => [mark.wordAs separator, part.word]) ++ items)
  | [], _, hrest => hrest
  | (_, _) :: _, h, hrest =>
    have hfirst := (List.forall_mem_cons.1 h).1
    .neutral hfirst.1 hseparator (.neutral rfl hfirst.2
      (path_settles hseparator (List.forall_mem_cons.1 h).2 hrest))

/-! ## 3. What comes after a separator -/

/-- No expression begins with a closing brace. -/
theorem Expr.unbraced {e : Expr} (h : e.Fits limit next) (hg : AllGenuine version e.leaves) :
    Unbraced (e.leaves ++ leaves) := by
  obtain ⟨more, heq⟩ := e.leaves_eq
  have hhead : e.head.token.Genuine version := hg e.head (by simp [heq])
  rw [heq]
  rintro m ⟨⟩
  exact hhead.expr_ne_brace (Expr.Fits.starts h)

/-- An access begins with a name or an opening bracket. -/
theorem Access.unbraced {a : Access} (h : a.Fits next) (hg : AllGenuine version a.leaves) :
    Unbraced (a.leaves ++ leaves) := by
  obtain ⟨more, heq⟩ := a.leaves_eq
  have hhead : a.head.token.Genuine version := hg a.head (by simp [heq])
  rw [heq]
  rcases Access.Fits.starts h with hopen | hname
  · exact .of_text (Token.isOperator_iff.1 hopen).2 (by decide)
  · exact .of_neutral (hhead.neutral_name hname)

theorem Field.unbraced {f : Field} (h : NoneOf ["\x7d"] (Leaf.front f.leaves none)) :
    Unbraced (f.leaves ++ leaves) := by
  obtain ⟨l, more, heq⟩ := f.leaves_eq
  exact .of_front heq h

theorem StatementForm.opening_ne_brace (form : StatementForm) : form.opening ≠ "\x7d" := by
  cases form <;> decide

/-- No statement begins with a closing brace: each form has an opening of its own, and what
has none begins with an access. -/
theorem Stat.unbraced {x : Stat} (h : x.Fits next) (hg : AllGenuine version x.leaves) :
    Unbraced (x.leaves ++ leaves) := by
  have hopens : ∀ {l : Leaf} {rest : List Leaf} {form : StatementForm}, l.Opens form →
      Unbraced (l :: rest) :=
    fun hl => .of_text hl.saying (StatementForm.opening_ne_brace _)
  cases x with
  | breakLoop word => exact hopens h
  | goto word target => exact hopens h.1
  | label opening name closing => exact hopens h.1
  | empty semicolon => exact hopens h
  | doBlock word block closing => exact hopens h.1
  | whileLoop word condition opening block closing => exact hopens h.1
  | repeatLoop word block closing condition => exact hopens h.1
  | conditional first more otherwise closing =>
    obtain ⟨word, condition, opening, block⟩ := first
    exact hopens (h.1 word rfl)
  | countingLoop word name equals start comma stop step opening block closing => exact hopens h.1
  | iteration word name more between values opening block closing => exact hopens h.1
  | function word name path method body => exact hopens h.1
  | localFunction word function name body => exact hopens h.1
  | localNames word first more values => obtain _ | ⟨equals, values⟩ := values <;> exact hopens h.1
  | result word values => cases values <;> exact hopens h.1
  | assignment first more equals values =>
    rw [Stat.leaves, List.append_assoc]
    exact Access.unbraced h.2.1 (AllGenuine.append_iff.1 hg).1
  | call callee => exact Access.unbraced h.2.1 hg

/-- Statements hand on what comes after them, if there are none. -/
theorem statements_unbraced {xs : List Stat} (h : StatementsFit next xs)
    (hg : AllGenuine version (statementsLeaves xs)) (hrest : Unbraced leaves) :
    Unbraced (statementsLeaves xs ++ leaves) := by
  cases xs with
  | nil => exact hrest
  | cons x more =>
    rw [statementsLeaves, List.append_assoc]
    exact Stat.unbraced h.2.1 (AllGenuine.append_iff.1 hg).1

theorem branches_unbraced {bs : List Branch} (h : BranchesFit next bs) (hrest : Unbraced leaves) :
    Unbraced (branchesLeaves bs ++ leaves) := by
  cases bs with
  | nil => exact hrest
  | cons b more =>
    obtain ⟨word, condition, opening, block⟩ := b
    exact .of_text (h.1 word rfl) (by decide)

theorem otherwise_unbraced {otherwise : Option (Leaf × Block)} (h : OtherwiseFits next otherwise)
    (hrest : Unbraced leaves) : Unbraced (otherwiseLeaves otherwise ++ leaves) := by
  cases otherwise with
  | none => exact hrest
  | some p => exact .of_text h.1 (by decide)

/-- The block of a loop between its words, given by what it does in front of other leaves. -/
theorem loopBody_settles {opening closing : Leaf} {block : Block} {inner : Int}
    (hopening : opening.Says "do") (hclosing : closing.Says "end")
    (hblock : ∀ {stack : List String} {leaves : List Leaf} {items : List Item},
      stack.head? ≠ some "\x7b" → Unbraced leaves → Settles stack leaves items →
      Settles stack (block.leaves ++ leaves) (block.layout false inner ++ items))
    (hrest : Settles stack leaves items) :
    Settles stack (opening :: (block.leaves ++ closing :: leaves)) (opening.wordAs "do" ::
      (block.layout false inner ++ closingLine indent :: closing.wordAs "end" :: items)) := by
  have hend : Settles ("do" :: stack) (closing :: leaves)
      (closingLine indent :: closing.wordAs "end" :: items) :=
    .line (.closer hclosing hrest (by decide))
  have hinside : Settles ("do" :: stack) (block.leaves ++ closing :: leaves)
      (block.layout false inner ++ closingLine indent :: closing.wordAs "end" :: items) :=
    hblock (outside_cons (by decide)) (.of_text hclosing (by decide)) hend
  exact .opener hopening hinside (by decide)

/-! ## 4. Expressions, tables and functions -/

mutual

/-- Expressions open and close only what is theirs, so whatever is open before one is open
after it. -/
theorem Expr.settles {limit : Int} {next : Option Token} {indent : Int} {stack : List String}
    {leaves : List Leaf} {items : List Item} :
    ∀ e : Expr, e.Fits limit next → AllGenuine version e.leaves → Settles stack leaves items →
      Settles stack (e.leaves ++ leaves) (e.layout false indent ++ items)
  | .mk operand operations, h, hg, hrest => by
    obtain ⟨hgoperand, hgoperations⟩ := AllGenuine.append_iff.1 hg
    simp only [Expr.leaves, Expr.layout, showGroup, Bool.false_eq_true, if_false, List.append_assoc]
    exact Operand.settles operand h.1 hgoperand (operationsSettle operations h.2 hgoperations hrest)

theorem operationsSettle {limit : Int} {next : Option Token} {indent : Int} {stack : List String}
    {leaves : List Leaf} {items : List Item} :
    ∀ ops : List (Leaf × Expr), OperationsFit limit next ops →
      AllGenuine version (operationsLeaves ops) → Settles stack leaves items →
      Settles stack (operationsLeaves ops ++ leaves) (operationsLayout false indent ops ++ items)
  | [], _, _, hrest => hrest
  | (operator, right) :: more, h, hg, hrest => by
    obtain ⟨⟨powers, hpowers, hright⟩, hmore⟩ := h
    simp only [operationsLeaves, AllGenuine.cons_iff, AllGenuine.append_iff] at hg
    obtain ⟨-, hgright, hgmore⟩ := hg
    simp only [operationsLeaves, operationsLayout, List.cons_append, List.append_assoc]
    exact .space (.neutral rfl (neutral_binary hpowers) (.space
      (Expr.settles right hright hgright (operationsSettle more hmore hgmore hrest))))

/-- A function opens a construct with its word, which its body closes. -/
theorem Operand.settles {next : Option Token} {indent : Int} {stack : List String}
    {leaves : List Leaf} {items : List Item} :
    ∀ o : Operand, o.Fits next → AllGenuine version o.leaves → Settles stack leaves items →
      Settles stack (o.leaves ++ leaves) (o.layout false indent ++ items)
  | .unary operator argument, h, hg, hrest => by
    simp only [Operand.leaves, Operand.layout, List.cons_append, List.append_assoc]
    exact .neutral rfl (neutral_unary h.1) (.spaceIf
      (Expr.settles argument h.2 (AllGenuine.cons_iff.1 hg).2 hrest))
  | .literal _, h, hg, hrest => .neutral rfl ((AllGenuine.cons_iff.1 hg).1.neutral_literal h) hrest
  | .table fields, h, hg, hrest => Table.settles fields h.2 hg hrest
  | .function word body, h, hg, hrest => by
    simp only [Operand.leaves, Operand.layout, List.cons_append]
    exact .opener (Token.isKeyword_iff.1 h.1).2
      (Body.settles body h.2 (AllGenuine.cons_iff.1 hg).2 (by decide) hrest)
  | .access path, h, hg, hrest => Access.settles path h hg hrest

theorem Access.settles {next : Option Token} {indent : Int} {stack : List String}
    {leaves : List Leaf} {items : List Item} :
    ∀ a : Access, a.Fits next → AllGenuine version a.leaves → Settles stack leaves items →
      Settles stack (a.leaves ++ leaves) (a.layout false indent ++ items)
  | .mk root suffixes, h, hg, hrest => by
    obtain ⟨hgroot, hgsuffixes⟩ := AllGenuine.append_iff.1 hg
    simp only [Access.leaves, Access.layout, List.append_assoc]
    exact Root.settles root h.1 hgroot (suffixesSettle suffixes h.2 hgsuffixes hrest)

theorem Root.settles {indent : Int} {stack : List String} {leaves : List Leaf} {items : List Item} :
    ∀ r : Root, r.Fits → AllGenuine version r.leaves → Settles stack leaves items →
      Settles stack (r.leaves ++ leaves) (r.layout false indent ++ items)
  | .name _, h, hg, hrest => .neutral rfl ((AllGenuine.cons_iff.1 hg).1.neutral_name h) hrest
  | .group opening inner closing, h, hg, hrest => by
    simp only [Root.leaves, AllGenuine.cons_iff, AllGenuine.append_iff] at hg
    simp only [Root.leaves, Root.layout, List.cons_append, List.append_assoc, List.nil_append]
    exact .neutral (Token.isOperator_iff.1 h.1).2 (by decide)
      (Expr.settles inner h.2.1 hg.2.1 (.neutral h.2.2 (by decide) hrest))

theorem suffixesSettle {next : Option Token} {indent : Int} {stack : List String}
    {leaves : List Leaf} {items : List Item} :
    ∀ xs : List Suffix, SuffixesFit next xs → AllGenuine version (suffixesLeaves xs) →
      Settles stack leaves items →
      Settles stack (suffixesLeaves xs ++ leaves) (suffixesLayout false indent xs ++ items)
  | [], _, _, hrest => hrest
  | x :: more, h, hg, hrest => by
    obtain ⟨hgx, hgmore⟩ := AllGenuine.append_iff.1 hg
    simp only [suffixesLeaves, suffixesLayout, List.append_assoc]
    exact Suffix.settles x h.1 hgx (suffixesSettle more h.2 hgmore hrest)

/-- The brackets of an index or a call open nothing: what is between them is followed as if
they were not there. -/
theorem Suffix.settles {indent : Int} {stack : List String} {leaves : List Leaf}
    {items : List Item} :
    ∀ x : Suffix, x.Fits → AllGenuine version x.leaves → Settles stack leaves items →
      Settles stack (x.leaves ++ leaves) (x.layout false indent ++ items)
  | .text _, h, hg, hrest =>
    .space (.neutral rfl ((AllGenuine.cons_iff.1 hg).1.neutral_string h) hrest)
  | .member separator name, h, hg, hrest => by
    simp only [Suffix.leaves, AllGenuine.cons_iff] at hg
    have hseparator : Neutral separator.token.text := by
      rcases h.1 with hs | hs <;> rw [(Token.isOperator_iff.1 hs).2] <;> decide
    exact .neutral rfl hseparator (.neutral rfl (hg.2.1.neutral_name h.2) hrest)
  | .index opening key closing, h, hg, hrest => by
    simp only [Suffix.leaves, AllGenuine.cons_iff, AllGenuine.append_iff] at hg
    simp only [Suffix.leaves, Suffix.layout, List.cons_append, List.append_assoc, List.nil_append]
    exact .neutral (Token.isOperator_iff.1 h.1).2 (by decide) (.spaceIf
      (Expr.settles key h.2.1 hg.2.1 (.spaceIf (.neutral h.2.2 (by decide) hrest))))
  | .table fields, h, hg, hrest => Table.settles fields h.2 hg hrest
  | .call opening none closing, h, _, hrest =>
    .neutral (Token.isOperator_iff.1 h.1).2 (by decide) (.neutral h.2 (by decide) hrest)
  | .call opening (some arguments) closing, h, hg, hrest => by
    simp only [Suffix.leaves, AllGenuine.cons_iff, AllGenuine.append_iff] at hg
    simp only [Suffix.leaves, Suffix.layout, List.cons_append, List.append_assoc, List.nil_append]
    exact .neutral (Token.isOperator_iff.1 h.1).2 (by decide)
      (Exprs.settles arguments h.2.2.1 hg.2.1 (.neutral h.2.2.2 (by decide) hrest))

theorem Exprs.settles {next : Option Token} {indent : Int} {stack : List String}
    {leaves : List Leaf} {items : List Item} :
    ∀ es : Exprs, es.Fits next → AllGenuine version es.leaves → Settles stack leaves items →
      Settles stack (es.leaves ++ leaves) (es.layout false indent ++ items)
  | .mk first more, h, hg, hrest => by
    obtain ⟨hgfirst, hgmore⟩ := AllGenuine.append_iff.1 hg
    simp only [Exprs.leaves, Exprs.layout, List.append_assoc]
    exact Expr.settles first h.1 hgfirst (commaExprsSettle more h.2 hgmore hrest)

theorem commaExprsSettle {next : Option Token} {indent : Int} {stack : List String}
    {leaves : List Leaf} {items : List Item} :
    ∀ more : List (Leaf × Expr), CommaExprsFit next more →
      AllGenuine version (commaExprsLeaves more) → Settles stack leaves items →
      Settles stack (commaExprsLeaves more ++ leaves) (commaExprsLayout false indent more ++ items)
  | [], _, _, hrest => hrest
  | (comma, e) :: more, h, hg, hrest => by
    obtain ⟨hcomma, he, hmore⟩ := h
    simp only [commaExprsLeaves, AllGenuine.cons_iff, AllGenuine.append_iff] at hg
    simp only [commaExprsLeaves, commaExprsLayout, List.cons_append, List.append_assoc]
    exact .comma hcomma (Expr.unbraced he hg.2.1) (.space
      (Expr.settles e he hg.2.1 (commaExprsSettle more hmore hg.2.2 hrest)))

/-- A table opens with its brace, and a separator in front of the closing one is left out. -/
theorem Table.settles {indent : Int} {stack : List String} {leaves : List Leaf}
    {items : List Item} :
    ∀ t : Table, t.Fits → AllGenuine version t.leaves → Settles stack leaves items →
      Settles stack (t.leaves ++ leaves) (t.layout false indent ++ items)
  | .empty opening closing, h, _, hrest => .opener h.1 (.closer h.2 hrest)
  | .fields opening first more trailing closing, h, hg, hrest => by
    obtain ⟨hopening, -, hfirst, hmore, htrailing, hclosing⟩ := h
    simp only [Table.leaves, AllGenuine.cons_iff, AllGenuine.append_iff] at hg
    obtain ⟨-, hgfirst, hgmore, -, -⟩ := hg
    have hclose : Settles ("\x7b" :: stack) (trailing.toList ++ closing :: leaves)
        (trailing.toList.map Leaf.omitted ++
          closingLine indent :: closing.wordAs "\x7d" :: items) := by
      have hlast : Settles ("\x7b" :: stack) (closing :: leaves)
          (closingLine indent :: closing.wordAs "\x7d" :: items) := .line (.closer hclosing hrest)
      cases trailing with
      | none => exact hlast
      | some separator => exact .trailing (htrailing separator rfl) hclosing hlast
    simp only [Table.leaves, Table.layout, List.cons_append, List.append_assoc, List.nil_append]
    exact .opener hopening (.line (Field.settles first hfirst hgfirst
      (fieldsSettle more hmore hgmore hclose)))

/-- Between the fields of a table the innermost construct is the table itself. -/
theorem fieldsSettle {next : Option Token} {indent : Int} {stack : List String}
    {leaves : List Leaf} {items : List Item} :
    ∀ more : List (Leaf × Field), FieldsFit next more →
      AllGenuine version (fieldsLeaves more) → Settles ("\x7b" :: stack) leaves items →
      Settles ("\x7b" :: stack) (fieldsLeaves more ++ leaves)
        (commaFieldsLayout false indent more ++ items)
  | [], _, _, hrest => hrest
  | (separator, f) :: more, h, hg, hrest => by
    obtain ⟨hseparator, hnot, hf, hmore⟩ := h
    simp only [fieldsLeaves, AllGenuine.cons_iff, AllGenuine.append_iff] at hg
    simp only [fieldsLeaves, commaFieldsLayout, List.cons_append, List.append_assoc]
    exact .separator hseparator (Field.unbraced hnot) (.line
      (Field.settles f hf hg.2.1 (fieldsSettle more hmore hg.2.2 hrest)))

theorem Field.settles {next : Option Token} {indent : Int} {stack : List String}
    {leaves : List Leaf} {items : List Item} :
    ∀ f : Field, f.Fits next → AllGenuine version f.leaves → Settles stack leaves items →
      Settles stack (f.leaves ++ leaves) (f.layout false indent ++ items)
  | .keyed opening key closing equals value, h, hg, hrest => by
    obtain ⟨hopening, hkey, hclosing, hequals, hvalue⟩ := h
    simp only [Field.leaves, AllGenuine.cons_iff, AllGenuine.append_iff] at hg
    obtain ⟨-, hgkey, -, -, hgvalue⟩ := hg
    simp only [Field.leaves, Field.layout, List.cons_append, List.append_assoc]
    exact .neutral (Token.isOperator_iff.1 hopening).2 (by decide) (.spaceIf
      (Expr.settles key hkey hgkey (.spaceIf (.neutral hclosing (by decide) (.space
        (.neutral hequals (by decide) (.space (Expr.settles value hvalue hgvalue hrest))))))))
  | .named name equals value, h, hg, hrest => by
    obtain ⟨hname, hequals, hvalue⟩ := h
    simp only [Field.leaves, AllGenuine.cons_iff] at hg
    obtain ⟨hgname, -, hgvalue⟩ := hg
    exact .neutral rfl (hgname.neutral_name hname) (.space (.neutral hequals (by decide) (.space
      (Expr.settles value hvalue hgvalue hrest))))
  | .positional value, h, hg, hrest => Expr.settles value h.1 hg hrest

/-- A body closes the construct that the word before it has opened. -/
theorem Body.settles {indent : Int} {stack : List String} {top : String} {leaves : List Leaf}
    {items : List Item} :
    ∀ b : Body, b.Fits → AllGenuine version b.leaves → top ≠ "\x7b" → Settles stack leaves items →
      Settles (top :: stack) (b.leaves ++ leaves) (b.layout false indent ++ items)
  | .mk parameters block closing, h, hg, htop, hrest => by
    obtain ⟨hparameters, hblock, hclosing⟩ := h
    simp only [Body.leaves, AllGenuine.append_iff] at hg
    simp only [Body.leaves, Body.layout, closeBlock, List.append_assoc, List.cons_append,
      List.nil_append]
    exact Parameters.settles hparameters hg.1 (Block.settles block hblock hg.2.1 (outside_cons htop)
      (.of_text hclosing (by decide)) (.line (.closer hclosing hrest)))

/-- In a block, semicolons are statements: the innermost construct is no table. -/
theorem Block.settles {next : Option Token} {indent : Int} {stack : List String}
    {leaves : List Leaf} {items : List Item} :
    ∀ b : Block, b.Fits next → AllGenuine version b.leaves → stack.head? ≠ some "\x7b" →
      Unbraced leaves → Settles stack leaves items →
      Settles stack (b.leaves ++ leaves) (b.layout false indent ++ items)
  | .mk statements, h, hg, hstack, hnext, hrest =>
    statementsSettle statements h hg hstack hnext hrest

/-- Each statement stands in front of the next one or of what comes after them all, neither of
which begins with a closing brace. -/
theorem statementsSettle {next : Option Token} {indent : Int} {blank : Bool} {stack : List String}
    {leaves : List Leaf} {items : List Item} :
    ∀ xs : List Stat, StatementsFit next xs → AllGenuine version (statementsLeaves xs) →
      stack.head? ≠ some "\x7b" → Unbraced leaves → Settles stack leaves items →
      Settles stack (statementsLeaves xs ++ leaves) (statementsLayout false indent blank xs ++ items)
  | [], _, _, _, _, hrest => hrest
  | x :: more, h, hg, hstack, hnext, hrest => by
    obtain ⟨hgx, hgmore⟩ := AllGenuine.append_iff.1 hg
    simp only [statementsLeaves, statementsLayout, List.cons_append, List.append_assoc]
    exact .line (Stat.settles x h.2.1 hgx hstack (statements_unbraced h.2.2 hgmore hnext)
      (statementsSettle more h.2.2 hgmore hstack hnext hrest))

/-- The statement that consists of a semicolon is why tables and closing braces are kept out. -/
theorem Stat.settles {next : Option Token} {indent : Int} {stack : List String}
    {leaves : List Leaf} {items : List Item} :
    ∀ x : Stat, x.Fits next → AllGenuine version x.leaves → stack.head? ≠ some "\x7b" →
      Unbraced leaves → Settles stack leaves items →
      Settles stack (x.leaves ++ leaves) (x.layout false indent ++ items)
  | .breakLoop word, h, _, _, _, hrest => .neutral (Leaf.Opens.saying h) (by decide) hrest
  | .goto word target, h, hg, _, _, hrest => by
    simp only [Stat.leaves, AllGenuine.cons_iff] at hg
    exact .neutral h.1.saying (by decide) (.space (.neutral rfl (hg.2.1.neutral_name h.2) hrest))
  | .label opening name closing, h, hg, _, _, hrest => by
    simp only [Stat.leaves, AllGenuine.cons_iff] at hg
    exact .neutral h.1.saying (by decide) (.neutral rfl (hg.2.1.neutral_name h.2.1)
      (.neutral h.2.2 (by decide) hrest))
  | .empty semicolon, h, _, hstack, hnext, hrest =>
    .semicolon (Leaf.Opens.saying h) hstack hnext hrest
  | .doBlock word block closing, h, hg, _, _, hrest => by
    obtain ⟨hword, hblock, hclosing⟩ := h
    simp only [Stat.leaves, AllGenuine.cons_iff, AllGenuine.append_iff] at hg
    simp only [Stat.leaves, Stat.layout, closeBlock, List.cons_append, List.append_assoc,
      List.nil_append]
    exact loopBody_settles hword.saying hclosing
      (fun hstack hnext hrest => Block.settles block hblock hg.2.1 hstack hnext hrest) hrest
  | .whileLoop word condition opening block closing, h, hg, _, _, hrest => by
    obtain ⟨hword, hcondition, hopening, hblock, hclosing⟩ := h
    simp only [Stat.leaves, AllGenuine.cons_iff, AllGenuine.append_iff] at hg
    obtain ⟨-, hgcondition, -, hgblock, -⟩ := hg
    simp only [Stat.leaves, Stat.layout, closeBlock, List.cons_append, List.append_assoc,
      List.nil_append]
    exact .neutral hword.saying (by decide) (.space (Expr.settles condition hcondition hgcondition
      (.space (loopBody_settles hopening hclosing (fun hstack hnext hrest =>
        Block.settles block hblock hgblock hstack hnext hrest) hrest))))
  | .repeatLoop word block closing condition, h, hg, _, _, hrest => by
    obtain ⟨hword, hblock, hclosing, hcondition⟩ := h
    simp only [Stat.leaves, AllGenuine.cons_iff, AllGenuine.append_iff] at hg
    obtain ⟨-, hgblock, -, hgcondition⟩ := hg
    simp only [Stat.leaves, Stat.layout, closeBlock, List.cons_append, List.append_assoc,
      List.nil_append]
    exact .opener hword.saying (Block.settles block hblock hgblock (outside_cons (by decide))
      (.of_text hclosing (by decide)) (.line (.closer hclosing
        (.space (Expr.settles condition hcondition hgcondition hrest)))))
  | .conditional first more otherwise closing, h, hg, _, _, hrest => by
    obtain ⟨hword, hfirst, hmore, hotherwise, hclosing⟩ := h
    simp only [Stat.leaves, AllGenuine.append_iff] at hg
    obtain ⟨hgfirst, hgmore, hgotherwise, -⟩ := hg
    have hclose : ∀ {top : String}, Settles (top :: stack) (closing :: leaves)
        (closeBlock indent "end" closing ++ items) := .line (.closer hclosing hrest)
    have hend : Unbraced (otherwiseLeaves otherwise ++ closing :: leaves) :=
      otherwise_unbraced hotherwise (.of_text hclosing (by decide))
    have hotherwise' : ∀ {top : String}, top ≠ "\x7b" → Settles (top :: stack)
        (otherwiseLeaves otherwise ++ closing :: leaves)
        (otherwiseLayout false indent otherwise ++ (closeBlock indent "end" closing ++ items)) :=
      fun htop => otherwiseSettles otherwise hotherwise hgotherwise htop
        (.of_text hclosing (by decide)) hclose
    have hbranches : Settles ("then" :: stack) (branchesLeaves more ++ _)
        (branchesLayout false indent more ++ _) :=
      branchesSettle more hmore hgmore (by decide) hend hotherwise'
    simp only [Stat.leaves, Stat.layout, List.append_assoc, List.cons_append, List.nil_append]
    obtain ⟨word, condition, opening, block⟩ := first
    exact Branch.settles (.mk word condition opening block) hfirst hgfirst
      (branches_unbraced hmore hend)
      (fun hhead hlater => .neutral (hword _ hhead).saying (by decide) hlater) hbranches
  | .countingLoop word name equals start comma stop step opening block closing, h, hg, _, _, hrest => by
    obtain ⟨hword, hname, hequals, hstart, hcomma, hstop, hstep, hopening, hblock, hclosing⟩ := h
    simp only [Stat.leaves, AllGenuine.cons_iff, AllGenuine.append_iff] at hg
    obtain ⟨-, hgname, -, hgstart, -, hgstop, hgstep, -, hgblock, -⟩ := hg
    have hdo : Settles stack (opening :: (block.leaves ++ closing :: leaves)) (opening.wordAs "do" ::
        (block.layout false (indent + indentStep) ++
          closingLine indent :: closing.wordAs "end" :: items)) :=
      loopBody_settles hopening hclosing
        (fun hstack hnext hrest => Block.settles block hblock hgblock hstack hnext hrest) hrest
    simp only [Stat.leaves, Stat.layout, closeBlock, List.cons_append, List.append_assoc,
      List.nil_append]
    exact .neutral hword.saying (by decide) (.space (.neutral rfl (hgname.neutral_name hname)
      (.space (.neutral hequals (by decide) (.space (Expr.settles start hstart hgstart
        (.comma hcomma (Expr.unbraced hstop hgstop) (.space (Expr.settles stop hstop hgstop
          (stepSettles step hstep hgstep (.space hdo)))))))))))
  | .iteration word name more between values opening block closing, h, hg, _, _, hrest => by
    obtain ⟨hword, hname, hnames, hbetween, hvalues, hopening, hblock, hclosing⟩ := h
    simp only [Stat.leaves, AllGenuine.cons_iff, AllGenuine.append_iff] at hg
    obtain ⟨-, hgname, hgnames, -, hgvalues, -, hgblock, -⟩ := hg
    have hdo : Settles stack (opening :: (block.leaves ++ closing :: leaves)) (opening.wordAs "do" ::
        (block.layout false (indent + indentStep) ++
          closingLine indent :: closing.wordAs "end" :: items)) :=
      loopBody_settles hopening hclosing
        (fun hstack hnext hrest => Block.settles block hblock hgblock hstack hnext hrest) hrest
    simp only [Stat.leaves, Stat.layout, closeBlock, List.cons_append, List.append_assoc,
      List.nil_append]
    exact .neutral hword.saying (by decide) (.space (.neutral rfl (hgname.neutral_name hname)
      (commaNames_settles (hnames.neutral hgnames) (.space (.neutral hbetween (by decide)
        (.space (Exprs.settles values hvalues hgvalues (.space hdo))))))))
  | .function word name path method body, h, hg, _, _, hrest => by
    obtain ⟨hword, hname, hpath, hmethod, hbody⟩ := h
    simp only [Stat.leaves, ← Leaf.ofPairs_toList, AllGenuine.cons_iff, AllGenuine.append_iff] at hg
    obtain ⟨-, hgname, hgpath, hgmethod, hgbody⟩ := hg
    simp only [Stat.leaves, ← Leaf.ofPairs_toList, Stat.layout, List.cons_append, List.append_assoc]
    exact .opener hword.saying (.space (.neutral rfl (hgname.neutral_name hname)
      (path_settles (by decide) (hpath.neutral hgpath) (path_settles (by decide)
        (hmethod.neutral hgmethod) (Body.settles body hbody hgbody (by decide) hrest)))))
  | .localFunction word function name body, h, hg, _, _, hrest => by
    obtain ⟨hword, hfunction, hname, hbody⟩ := h
    simp only [Stat.leaves, AllGenuine.cons_iff] at hg
    obtain ⟨-, -, hgname, hgbody⟩ := hg
    simp only [Stat.leaves, Stat.layout, List.cons_append]
    exact .neutral hword.saying (by decide) (.space (.opener hfunction (.space
      (.neutral rfl (hgname.neutral_name hname) (Body.settles body hbody hgbody (by decide) hrest)))))
  | .localNames word first more none, h, hg, _, _, hrest => by
    obtain ⟨hword, -, hfirst, hmore, -⟩ := h
    simp only [Stat.leaves, AllGenuine.cons_iff, AllGenuine.append_iff] at hg
    obtain ⟨-, hgfirst, hgmore⟩ := hg
    simp only [Stat.leaves, Stat.layout, List.cons_append, List.append_assoc]
    exact .neutral hword.saying (by decide) (.space (LocalName.settles hfirst hgfirst
      (LocalName.more_settles hmore hgmore hrest)))
  | .localNames word first more (some (equals, values)), h, hg, _, _, hrest => by
    obtain ⟨hword, -, hfirst, hmore, hequals, hvalues⟩ := h
    simp only [Stat.leaves, AllGenuine.cons_iff, AllGenuine.append_iff] at hg
    obtain ⟨-, hgfirst, hgmore, -, hgvalues⟩ := hg
    simp only [Stat.leaves, Stat.layout, List.cons_append, List.append_assoc]
    exact .neutral hword.saying (by decide) (.space (LocalName.settles hfirst hgfirst
      (LocalName.more_settles hmore hgmore (.space (.neutral hequals (by decide) (.space
        (Exprs.settles values hvalues hgvalues hrest)))))))
  | .result word none, h, _, _, _, hrest => .neutral h.1.saying (by decide) hrest
  | .result word (some values), h, hg, _, _, hrest => by
    simp only [Stat.leaves, Stat.layout, List.cons_append]
    exact .neutral h.1.saying (by decide) (.space
      (Exprs.settles values h.2.2 (AllGenuine.cons_iff.1 hg).2 hrest))
  | .assignment first more equals values, h, hg, _, _, hrest => by
    obtain ⟨-, hfirst, -, hmore, hequals, hvalues⟩ := h
    simp only [Stat.leaves, AllGenuine.cons_iff, AllGenuine.append_iff] at hg
    obtain ⟨hgfirst, hgmore, -, hgvalues⟩ := hg
    simp only [Stat.leaves, Stat.layout, List.cons_append, List.append_assoc]
    exact Access.settles first hfirst hgfirst (commaAccessesSettle more hmore hgmore (.space
      (.neutral hequals (by decide) (.space (Exprs.settles values hvalues hgvalues hrest)))))
  | .call callee, h, hg, _, _, hrest => Access.settles callee h.2.1 hg hrest

theorem commaAccessesSettle {next : Option Token} {indent : Int} {stack : List String}
    {leaves : List Leaf} {items : List Item} :
    ∀ more : List (Leaf × Access), CommaAccessesFit next more →
      AllGenuine version (commaAccessesLeaves more) → Settles stack leaves items →
      Settles stack (commaAccessesLeaves more ++ leaves)
        (commaAccessesLayout false indent more ++ items)
  | [], _, _, hrest => hrest
  | (comma, a) :: more, h, hg, hrest => by
    obtain ⟨hcomma, ha, -, hmore⟩ := h
    simp only [commaAccessesLeaves, AllGenuine.cons_iff, AllGenuine.append_iff] at hg
    simp only [commaAccessesLeaves, commaAccessesLayout, List.cons_append, List.append_assoc]
    exact .comma hcomma (Access.unbraced ha hg.2.1) (.space
      (Access.settles a ha hg.2.1 (commaAccessesSettle more hmore hg.2.2 hrest)))

/-- A branch leaves its block open; its first word is read by the caller. -/
theorem Branch.settles {next : Option Token} {indent : Int} {text : String}
    {before stack : List String} {leaves : List Leaf} {items : List Item} :
    ∀ b : Branch, b.Fits next → AllGenuine version b.leaves → Unbraced leaves →
      (∀ {later : List Leaf} {word : Leaf} {rest : List Item}, b.leaves.head? = some word →
        Settles stack later rest → Settles before (word :: later) (word.wordAs text :: rest)) →
      Settles ("then" :: stack) leaves items →
      Settles before (b.leaves ++ leaves) (b.layout false indent text ++ items)
  | .mk word condition opening block, h, hg, hnext, hfirst, hrest => by
    obtain ⟨hcondition, hopening, hblock⟩ := h
    simp only [Branch.leaves, AllGenuine.cons_iff, AllGenuine.append_iff] at hg
    obtain ⟨-, hgcondition, -, hgblock⟩ := hg
    simp only [Branch.leaves, Branch.layout, List.cons_append, List.append_assoc]
    exact hfirst rfl (.space (Expr.settles condition hcondition hgcondition (.space
      (.opener hopening (Block.settles block hblock hgblock (outside_cons (by decide)) hnext hrest)))))

/-- The word of a further branch closes the branch before it, so whatever that one left open
is open no more. -/
theorem branchesSettle {next : Option Token} {indent : Int} {stack : List String} {top : String}
    {leaves : List Leaf} {items : List Item} :
    ∀ bs : List Branch, BranchesFit next bs → AllGenuine version (branchesLeaves bs) →
      top ≠ "\x7b" → Unbraced leaves →
      (∀ {top : String}, top ≠ "\x7b" → Settles (top :: stack) leaves items) →
      Settles (top :: stack) (branchesLeaves bs ++ leaves) (branchesLayout false indent bs ++ items)
  | [], _, _, htop, _, hrest => hrest htop
  | b :: more, h, hg, _, hnext, hrest => by
    obtain ⟨hword, hb, hmore⟩ := h
    obtain ⟨hgb, hgmore⟩ := AllGenuine.append_iff.1 hg
    simp only [branchesLeaves, branchesLayout, List.cons_append, List.append_assoc]
    exact .line (Branch.settles b hb hgb (branches_unbraced hmore hnext)
      (fun hhead hlater => .closer (hword _ hhead) hlater)
      (branchesSettle more hmore hgmore (by decide) hnext hrest))

/-- The last branch leaves its block open for the `end` of the condition. -/
theorem otherwiseSettles {next : Option Token} {indent : Int} {stack : List String} {top : String}
    {leaves : List Leaf} {items : List Item} :
    ∀ otherwise : Option (Leaf × Block), OtherwiseFits next otherwise →
      AllGenuine version (otherwiseLeaves otherwise) → top ≠ "\x7b" → Unbraced leaves →
      (∀ {top : String}, Settles (top :: stack) leaves items) →
      Settles (top :: stack) (otherwiseLeaves otherwise ++ leaves)
        (otherwiseLayout false indent otherwise ++ items)
  | none, _, _, _, _, hrest => hrest
  | some (word, block), h, hg, _, hnext, hrest => by
    simp only [otherwiseLeaves, otherwiseLayout, closeBlock, List.cons_append, List.nil_append]
    exact .line (.otherwise h.1 (Block.settles block h.2 (AllGenuine.cons_iff.1 hg).2
      (outside_cons (by decide)) hnext hrest))

theorem stepSettles {next : Option Token} {indent : Int} {stack : List String}
    {leaves : List Leaf} {items : List Item} :
    ∀ step : Option (Leaf × Expr), StepFits next step → AllGenuine version (stepLeaves step) →
      Settles stack leaves items →
      Settles stack (stepLeaves step ++ leaves) (stepLayout false indent step ++ items)
  | none, _, _, hrest => hrest
  | some (comma, step), h, hg, hrest => by
    obtain ⟨-, hgstep⟩ := AllGenuine.cons_iff.1 hg
    simp only [stepLeaves, stepLayout, List.cons_append]
    exact .comma h.1 (Expr.unbraced h.2 hgstep) (.space (Expr.settles step h.2 hgstep hrest))

end

end LuaLayout
