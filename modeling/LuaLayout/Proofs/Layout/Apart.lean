/-
LuaLayout.Proofs.Layout.Apart — no two words of a program run together.

The items of a tree that fits are apart in front of all that may come after
them: a line, a space, a closing bracket or a comma after an expression, and
whatever goes on with no name after an access. The induction is over the tree,
with what follows as a parameter, so that each part only has to know the first
character after it.
-/
import LuaLayout.Proofs.Layout.Gaps

namespace LuaLayout

open Lexeme
open Item (Apart Visible apart_spaceIf opening_word)

variable {version : Version} {limit : Int} {next : Option Token} {indent : Int} {rest : List Item}

/-! ## 1. What expressions bring to the character before them -/

/-- A part that begins with a word and is apart begins with something visible. -/
theorem BeginsWith.visible {text : String} {items : List Item} (h : BeginsWith text items)
    (hapart : Apart (items ++ rest)) : Visible (items ++ rest) := by
  obtain ⟨remarks, more, rfl⟩ := h
  exact hapart.1.starts

theorem BeginsWith.opening {text : String} {items : List Item} {d : Char} {tail : List Char}
    (rest : List Item) (h : BeginsWith text items) (htext : text.toList = d :: tail) :
    Item.opening (items ++ rest) = d := by
  obtain ⟨remarks, more, rfl⟩ := h
  exact opening_word htext

/-- A unary operator ends before its operand, with the space that may stand between. -/
theorem ends_unary {operator : Leaf} {argument : Expr}
    (hoperator : Parser.isUnary operator.token = true) (hfit : argument.Fits limit next)
    (hg : argument.head.token.Genuine version) :
    Ends operator.token.text.toList (Item.opening
      (spaceIf (unarySpace operator.token.text argument) ++
        (argument.layout false indent ++ rest))) := by
  obtain ⟨d, tail, hd, hequals, hline, -⟩ := hg.expr_opens (Expr.Fits.starts hfit)
  have hopening := (Expr.begins indent hfit).opening rest hd
  simp only [Parser.isUnary, Powers.unaryOperators, Bool.and_eq_true, beq_iff_eq,
    List.contains_iff_mem, List.mem_cons, List.not_mem_nil, or_false] at hoperator
  cases hspace : unarySpace operator.token.text argument with
  | true =>
    change Ends operator.token.text.toList ' '
    rcases hoperator.2 with h | h | h | h
    · rw [h]; exact ends_minus (by decide) (by decide)
    · rw [h]; exact ends_lone (by decide) _
    · rw [h]; exact ends_fixed (by decide) (by decide)
    · rw [h]; exact ends_tilde (by decide)
  | false =>
    simp only [spaceIf, Bool.false_eq_true, if_false, List.nil_append, hopening]
    rcases hoperator.2 with h | h | h | h
    · rw [h]
      refine ends_minus ?_ hline
      rintro rfl
      simp [unarySpace, h, Token.startsWith, hd] at hspace
    · rw [h]; exact ends_lone (by decide) _
    · simp [unarySpace, h] at hspace
    · rw [h]; exact ends_tilde hequals

/-- An opening square bracket ends before a key, with the space before a long string. -/
theorem ends_index {key : Expr} (hfit : key.Fits limit next)
    (hg : key.head.token.Genuine version) :
    Ends "[".toList (Item.opening (spaceIf key.startsWithLongString ++
      (key.layout false indent ++ rest))) := by
  obtain ⟨d, tail, hd, hequals, -, hstring⟩ := hg.expr_opens (Expr.Fits.starts hfit)
  have hopening := (Expr.begins indent hfit).opening rest hd
  cases hlong : key.startsWithLongString with
  | true =>
    change Ends ['['] ' '
    exact ends_bracket (by decide)
  | false =>
    simp only [spaceIf, Bool.false_eq_true, if_false, List.nil_append, hopening]
    refine ends_bracket ⟨?_, hequals⟩
    rintro rfl
    simp [Expr.startsWithLongString, hstring rfl, Token.startsWith, hd] at hlong

theorem AllGenuine.head {e : Expr} (h : AllGenuine version e.leaves) :
    e.head.token.Genuine version := by
  obtain ⟨more, heq⟩ := e.leaves_eq
  exact h e.head (by simp [heq])

/-- A key between square brackets, up to the bracket that closes it. -/
theorem index_apart {key : Expr} {closing : Leaf} (hfit : key.Fits limit next)
    (hg : key.head.token.Genuine version)
    (hkey : ∀ {rest : List Item}, Stops (Item.opening rest) → Apart rest →
      Apart (key.layout false indent ++ rest)) (hrest : Apart rest) :
    Ends "[".toList (Item.opening (spaceIf key.startsWithLongString ++
        (key.layout false indent ++ (spaceIf key.startsWithLongString ++
          (closing.wordAs "]" :: rest))))) ∧
      Apart (spaceIf key.startsWithLongString ++
        (key.layout false indent ++ (spaceIf key.startsWithLongString ++
          (closing.wordAs "]" :: rest)))) := by
  have hclose : Apart (closing.wordAs "]" :: rest) := ⟨ends_lone (by decide) _, hrest⟩
  have hk := hkey (stops_spaceIf (b := key.startsWithLongString)
    (show Stops (Item.opening (closing.wordAs "]" :: rest)) from stops_square))
    (apart_spaceIf ⟨_, _, rfl, by decide⟩ hclose)
  exact ⟨ends_index hfit hg, apart_spaceIf ((Expr.begins indent hfit).visible hk) hk⟩

theorem Body.opening_eq (b : Body) : Item.opening (b.layout false indent ++ rest) = '(' := by
  obtain ⟨parameters, block, closing⟩ := b
  cases parameters <;> rfl

theorem Block.opening_eq (b : Block) (h : Item.opening rest = '\n') :
    Item.opening (b.layout false indent ++ rest) = '\n' := by
  obtain ⟨_ | ⟨s, more⟩⟩ := b
  · exact h
  · rfl

/-- A closing word on its own line, after a block. -/
theorem closeBlock_apart {word : String} {closing : Leaf} (hword : isWord word.toList = true)
    (hc : Text.isNamePart (Item.opening rest) = false) (hrest : Apart rest) :
    Apart (closeBlock indent word closing ++ rest) := by
  have hends := ends_fixed hword hc
  exact ⟨hends.starts, hends, hrest⟩

theorem Exprs.visible {es : Exprs} (h : es.Fits next)
    (hapart : Apart (es.layout false indent ++ rest)) : Visible (es.layout false indent ++ rest) := by
  obtain ⟨text, hbegins⟩ := Exprs.begins indent h
  exact hbegins.visible hapart

theorem isLexeme_equals : IsLexeme .operator "=".toList :=
  isLexeme_operator.2 (by decide)

/-- A fixed word before what goes on with no name. -/
theorem visible_fixed {text : String} {remarks : List String} (hword : isWord text.toList = true)
    (hc : Text.isNamePart (Item.opening rest) = false) (hrest : Apart rest) :
    Visible (.word text remarks :: rest) ∧ Apart (.word text remarks :: rest) := by
  have hends := ends_fixed hword hc
  exact ⟨hends.starts, hends, hrest⟩

/-- A fixed word and a space. -/
theorem visible_fixed_space {text : String} {remarks : List String}
    (hword : isWord text.toList = true) (hvisible : Visible rest) (hrest : Apart rest) :
    Visible (.word text remarks :: .space :: rest) ∧
      Apart (.word text remarks :: .space :: rest) :=
  visible_fixed hword (show Text.isNamePart ' ' = false by decide) ⟨hvisible, hrest⟩

/-- A word that opens a block, the block, and the word that closes it. -/
theorem visible_block {text word : String} {opener closing : Leaf} {block : Block}
    {inner : Int} (htext : isWord text.toList = true) (hword : isWord word.toList = true)
    (hblock : ∀ {rest : List Item}, Item.opening rest = '\n' → Apart rest →
      Apart (block.layout false inner ++ rest))
    (hc : Text.isNamePart (Item.opening rest) = false) (hrest : Apart rest) :
    Visible (opener.wordAs text :: (block.layout false inner ++
        (closeBlock indent word closing ++ rest))) ∧
      Apart (opener.wordAs text :: (block.layout false inner ++
        (closeBlock indent word closing ++ rest))) := by
  have hclose : Apart (closeBlock indent word closing ++ rest) := closeBlock_apart hword hc hrest
  refine visible_fixed htext ?_ (hblock rfl hclose)
  rw [Block.opening_eq block rfl]
  decide

theorem statements_opening {blank : Bool} {xs : List Stat} (hc : Item.opening rest = '\n') :
    Item.opening (statementsLayout false indent blank xs ++ rest) = '\n' := by
  cases xs with
  | nil => exact hc
  | cons x more => rfl

/-- An equals sign between spaces. -/
theorem spaced_equals {equals : Leaf} (hvisible : Visible rest) (hrest : Apart rest) :
    Apart (.space :: equals.wordAs "=" :: .space :: rest) :=
  ⟨⟨_, _, rfl, by decide⟩, ends_operator_space isLexeme_equals, hvisible, hrest⟩

/-! ## 2. Loops from their parts

The parts of a loop are given by what they do in front of other items. -/

section

variable {word name equals comma between opening closing : Leaf} {block : Block}

/-- The block of a loop between its words. -/
theorem loopBody_apart {inner : Int}
    (hblock : ∀ {rest : List Item}, Item.opening rest = '\n' → Apart rest →
      Apart (block.layout false inner ++ rest))
    (hc : Item.opening rest = '\n') (hrest : Apart rest) :
    Visible (opening.wordAs "do" :: (block.layout false inner ++
        (closeBlock indent "end" closing ++ rest))) ∧
      Apart (opening.wordAs "do" :: (block.layout false inner ++
        (closeBlock indent "end" closing ++ rest))) :=
  visible_block (by decide) (by decide) hblock (hc ▸ by decide) hrest

/-- A loop that counts begins with a word, and stays apart if its parts do. -/
theorem countingLoop_apart {start stop : Expr} {step : Option (Leaf × Expr)}
    {startNext stopNext : Option Token} (hname : name.IsName) (hgname : name.token.Genuine version)
    (hstart : start.Fits limit startNext) (hstop : stop.Fits limit stopNext)
    (hstarts : ∀ {rest : List Item}, Stops (Item.opening rest) → Apart rest →
      Apart (start.layout false indent ++ rest))
    (hstops : ∀ {rest : List Item}, Stops (Item.opening rest) → Apart rest →
      Apart (stop.layout false indent ++ rest))
    (hsteps : ∀ {rest : List Item}, Stops (Item.opening rest) → Apart rest →
      Stops (Item.opening (stepLayout false indent step ++ rest)) ∧
        Apart (stepLayout false indent step ++ rest))
    (hblock : ∀ {rest : List Item}, Item.opening rest = '\n' → Apart rest →
      Apart (block.layout false (indent + indentStep) ++ rest))
    (hc : Item.opening rest = '\n') (hrest : Apart rest) :
    let items := (Stat.countingLoop word name equals start comma stop step opening block
      closing).layout false indent
    Visible (items ++ rest) ∧ Apart (items ++ rest) := by
  have hdo : Visible _ ∧ Apart (opening.wordAs "do" :: (block.layout false (indent + indentStep) ++
      (closeBlock indent "end" closing ++ rest))) := loopBody_apart hblock hc hrest
  obtain ⟨hby, hstep⟩ := @hsteps (.space :: _) stops_space hdo
  have hlast : Apart (stop.layout false indent ++ _) := hstops hby hstep
  have hfirst : Apart (start.layout false indent ++ comma.wordAs "," :: .space :: _) :=
    hstarts stops_comma ⟨ends_lone (by decide) _, (Expr.begins indent hstop).visible hlast, hlast⟩
  simp only [Stat.layout, List.cons_append, List.append_assoc]
  exact visible_fixed_space (by decide) hgname.starts ⟨hname.endsNames hgname ' ' (by decide),
    spaced_equals ((Expr.begins indent hstart).visible hfirst) hfirst⟩

/-- So does a loop over the values of expressions. -/
theorem iteration_apart {more : List (Leaf × Leaf)} {values : Exprs}
    (hname : name.IsName) (hgname : name.token.Genuine version)
    (hmore : ∀ p ∈ more, p.2.EndsNames) (hvalues : values.Fits next)
    (hlist : ∀ {rest : List Item}, Stops (Item.opening rest) → Apart rest →
      Apart (values.layout false indent ++ rest))
    (hblock : ∀ {rest : List Item}, Item.opening rest = '\n' → Apart rest →
      Apart (block.layout false (indent + indentStep) ++ rest))
    (hc : Item.opening rest = '\n') (hrest : Apart rest) :
    let items := (Stat.iteration word name more between values opening block closing).layout
      false indent
    Visible (items ++ rest) ∧ Apart (items ++ rest) := by
  have hdo : Visible _ ∧ Apart (opening.wordAs "do" :: (block.layout false (indent + indentStep) ++
      (closeBlock indent "end" closing ++ rest))) := loopBody_apart hblock hc hrest
  have hv : Apart (values.layout false indent ++ .space :: _) := hlist stops_space hdo
  have hin : Visible _ ∧ Apart (between.wordAs "in" :: .space :: _) :=
    visible_fixed_space (by decide) (Exprs.visible hvalues hv) hv
  have hspace : Text.isNamePart (Item.opening (.space :: between.wordAs "in" :: .space ::
      (values.layout false indent ++ .space :: opening.wordAs "do" ::
        (block.layout false (indent + indentStep) ++ (closeBlock indent "end" closing ++ rest))))) =
      false := show Text.isNamePart ' ' = false by decide
  obtain ⟨hc', hm⟩ := commaNames_apart hmore hspace hin
  simp only [Stat.layout, List.cons_append, List.append_assoc]
  exact visible_fixed_space (by decide) hgname.starts ⟨hname.endsNames hgname _ hc', hm⟩

end

/-! ## 3. Expressions, tables and functions -/

mutual

theorem Expr.apart {limit : Int} {next : Option Token} {indent : Int} {rest : List Item} :
    ∀ e : Expr, e.Fits limit next → AllGenuine version e.leaves → Stops (Item.opening rest) →
      Apart rest → Apart (e.layout false indent ++ rest)
  | .mk operand operations, h, hg, hc, hrest => by
    obtain ⟨hgoperand, hgoperations⟩ := AllGenuine.append_iff.1 hg
    obtain ⟨hstop, hapart⟩ := operationsApart operations h.2 hgoperations hc hrest
    simp only [Expr.layout, showGroup, Bool.false_eq_true, if_false, List.append_assoc]
    exact Operand.apart operand h.1 hgoperand hstop hapart

theorem operationsApart {limit : Int} {next : Option Token} {indent : Int} {rest : List Item} :
    ∀ ops : List (Leaf × Expr), OperationsFit limit next ops →
      AllGenuine version (operationsLeaves ops) → Stops (Item.opening rest) → Apart rest →
      Stops (Item.opening (operationsLayout false indent ops ++ rest)) ∧
        Apart (operationsLayout false indent ops ++ rest)
  | [], _, _, hc, hrest => ⟨hc, hrest⟩
  | (operator, right) :: more, h, hg, hc, hrest => by
    obtain ⟨⟨powers, hpowers, hright⟩, hmore⟩ := h
    simp only [operationsLeaves, AllGenuine.cons_iff, AllGenuine.append_iff] at hg
    obtain ⟨hgoperator, hgright, hgmore⟩ := hg
    obtain ⟨hstop, hapart⟩ := operationsApart more hmore hgmore hc hrest
    have hr : Apart (right.layout false indent ++ _) := Expr.apart right hright hgright hstop hapart
    have hkind : operator.token.kind = .operator := by
      cases hk : operator.token.kind == .operator with
      | true => exact beq_iff_eq.1 hk
      | false => simp [Parser.continuing?, Parser.binaryPowers?, hk] at hpowers
    simp only [operationsLayout, List.cons_append, List.append_assoc]
    exact ⟨stops_space, hgoperator.starts, hgoperator.ends_operator_space hkind,
      (Expr.begins indent hright).visible hr, hr⟩

theorem Operand.apart {next : Option Token} {indent : Int} {rest : List Item} :
    ∀ o : Operand, o.Fits next → AllGenuine version o.leaves → Stops (Item.opening rest) →
      Apart rest → Apart (o.layout false indent ++ rest)
  | .unary operator argument, h, hg, hc, hrest => by
    obtain ⟨-, hgargument⟩ := AllGenuine.cons_iff.1 hg
    have ha : Apart (argument.layout false indent ++ rest) :=
      Expr.apart argument h.2 hgargument hc hrest
    simp only [Operand.layout, List.cons_append, List.append_assoc]
    exact ⟨ends_unary h.1 h.2 hgargument.head,
      apart_spaceIf ((Expr.begins indent h.2).visible ha) ha⟩
  | .literal value, h, hg, hc, hrest => ⟨(AllGenuine.cons_iff.1 hg).1.ends_literal h hc, hrest⟩
  | .table fields, h, hg, _, hrest => Table.apart fields h.2 hg hrest
  | .function word body, h, hg, hc, hrest => by
    have hb : Apart (body.layout false indent ++ rest) :=
      Body.apart body h.2 (AllGenuine.cons_iff.1 hg).2 hc.name hrest
    exact (visible_fixed (by decide) (Body.opening_eq body ▸ by decide) hb).2
  | .access path, h, hg, hc, hrest => Access.apart path h hg hc.name hrest

theorem Access.apart {next : Option Token} {indent : Int} {rest : List Item} :
    ∀ a : Access, a.Fits next → AllGenuine version a.leaves →
      Text.isNamePart (Item.opening rest) = false → Apart rest →
      Apart (a.layout false indent ++ rest)
  | .mk root suffixes, h, hg, hc, hrest => by
    obtain ⟨hgroot, hgsuffixes⟩ := AllGenuine.append_iff.1 hg
    obtain ⟨hopening, hapart⟩ := suffixesApart suffixes h.2 hgsuffixes hc hrest
    simp only [Access.layout, List.append_assoc]
    exact Root.apart root h.1 hgroot hopening hapart

theorem Root.apart {indent : Int} {rest : List Item} :
    ∀ r : Root, r.Fits → AllGenuine version r.leaves →
      Text.isNamePart (Item.opening rest) = false → Apart rest →
      Apart (r.layout false indent ++ rest)
  | .name name, h, hg, hc, hrest =>
    ⟨Leaf.IsName.endsNames h (AllGenuine.cons_iff.1 hg).1 _ hc, hrest⟩
  | .group opening inner closing, h, hg, _, hrest => by
    simp only [Root.leaves, AllGenuine.cons_iff, AllGenuine.append_iff] at hg
    simp only [Root.layout, List.cons_append, List.append_assoc, List.nil_append]
    exact ⟨ends_lone (by decide) _, Expr.apart inner h.2.1 hg.2.1 stops_round
      ⟨ends_lone (by decide) _, hrest⟩⟩

theorem suffixesApart {next : Option Token} {indent : Int} {rest : List Item} :
    ∀ xs : List Suffix, SuffixesFit next xs → AllGenuine version (suffixesLeaves xs) →
      Text.isNamePart (Item.opening rest) = false → Apart rest →
      Text.isNamePart (Item.opening (suffixesLayout false indent xs ++ rest)) = false ∧
        Apart (suffixesLayout false indent xs ++ rest)
  | [], _, _, hc, hrest => ⟨hc, hrest⟩
  | x :: more, h, hg, hc, hrest => by
    obtain ⟨hgx, hgmore⟩ := AllGenuine.append_iff.1 hg
    obtain ⟨hopening, hapart⟩ := suffixesApart more h.2 hgmore hc hrest
    simp only [suffixesLayout, List.append_assoc]
    exact Suffix.apart x h.1 hgx hopening hapart

theorem Suffix.apart {indent : Int} {rest : List Item} :
    ∀ x : Suffix, x.Fits → AllGenuine version x.leaves →
      Text.isNamePart (Item.opening rest) = false → Apart rest →
      Text.isNamePart (Item.opening (x.layout false indent ++ rest)) = false ∧
        Apart (x.layout false indent ++ rest)
  | .text string, h, hg, _, hrest => by
    have hends := (AllGenuine.cons_iff.1 hg).1.ends_string (c := Item.opening rest) h
    have hspace : Text.isNamePart ' ' = false := by decide
    exact ⟨hspace, hends.starts, hends, hrest⟩
  | .member separator name, h, hg, hc, hrest => by
    simp only [Suffix.leaves, AllGenuine.cons_iff] at hg
    obtain ⟨d, tail, hd, hstart⟩ := hg.2.1.name_starts (.inl h.2)
    have hname : Apart (name.word :: rest) := ⟨h.2.endsNames hg.2.1 _ hc, hrest⟩
    have hopening : Item.opening (name.word :: rest) = d := opening_word hd
    have hcases : separator.token.text = "." ∨ separator.token.text = ":" := by
      rcases h.1 with h | h
      · exact .inl (Token.isOperator_iff.1 h).2
      · exact .inr (Token.isOperator_iff.1 h).2
    have hends : Ends separator.token.text.toList (Item.opening (name.word :: rest)) := by
      rw [hopening]
      exact ends_operator_name (isLexeme_path (by simpa using hcases)) hstart
    refine ⟨?_, hends, hname⟩
    rcases hcases with htext | htext
    · rw [show Item.opening (Suffix.layout false indent (.member separator name) ++ rest) = '.' from
        opening_word (by rw [htext]; rfl)]
      decide
    · rw [show Item.opening (Suffix.layout false indent (.member separator name) ++ rest) = ':' from
        opening_word (by rw [htext]; rfl)]
      decide
  | .index opening key closing, h, hg, _, hrest => by
    simp only [Suffix.leaves, AllGenuine.cons_iff, AllGenuine.append_iff] at hg
    have hopening : Text.isNamePart '[' = false := by decide
    simp only [Suffix.layout, List.cons_append, List.append_assoc, List.nil_append]
    exact ⟨hopening, index_apart h.2.1 hg.2.1.head
      (fun hc hrest => Expr.apart key h.2.1 hg.2.1 hc hrest) hrest⟩
  | .table fields, h, hg, _, hrest => by
    have ht : Apart (fields.layout false indent ++ rest) := Table.apart fields h.2 hg hrest
    have hbrace : Text.isNamePart '\x7b' = false := by decide
    refine ⟨?_, ht⟩
    have htext := (Token.isOperator_iff.1 h.1).2
    rw [Suffix.layout, (Table.begins indent h.2).opening rest (by rw [htext]; rfl)]
    exact hbrace
  | .call opening none closing, _, _, _, hrest => by
    have hround : Text.isNamePart '(' = false := by decide
    exact ⟨hround, ends_lone (by decide) _, ends_lone (by decide) _, hrest⟩
  | .call opening (some arguments) closing, h, hg, _, hrest => by
    simp only [Suffix.leaves, AllGenuine.cons_iff, AllGenuine.append_iff] at hg
    have hround : Text.isNamePart '(' = false := by decide
    simp only [Suffix.layout, List.cons_append, List.append_assoc, List.nil_append]
    exact ⟨hround, ends_lone (by decide) _, Exprs.apart arguments h.2.2.1 hg.2.1 stops_round
      ⟨ends_lone (by decide) _, hrest⟩⟩

theorem Exprs.apart {next : Option Token} {indent : Int} {rest : List Item} :
    ∀ es : Exprs, es.Fits next → AllGenuine version es.leaves → Stops (Item.opening rest) →
      Apart rest → Apart (es.layout false indent ++ rest)
  | .mk first more, h, hg, hc, hrest => by
    obtain ⟨hgfirst, hgmore⟩ := AllGenuine.append_iff.1 hg
    obtain ⟨hstop, hapart⟩ := commaExprsApart more h.2 hgmore hc hrest
    simp only [Exprs.layout, List.append_assoc]
    exact Expr.apart first h.1 hgfirst hstop hapart

theorem commaExprsApart {next : Option Token} {indent : Int} {rest : List Item} :
    ∀ more : List (Leaf × Expr), CommaExprsFit next more →
      AllGenuine version (commaExprsLeaves more) → Stops (Item.opening rest) → Apart rest →
      Stops (Item.opening (commaExprsLayout false indent more ++ rest)) ∧
        Apart (commaExprsLayout false indent more ++ rest)
  | [], _, _, hc, hrest => ⟨hc, hrest⟩
  | (comma, e) :: more, h, hg, hc, hrest => by
    obtain ⟨-, he, hmore⟩ := h
    simp only [commaExprsLeaves, AllGenuine.cons_iff, AllGenuine.append_iff] at hg
    obtain ⟨hstop, hapart⟩ := commaExprsApart more hmore hg.2.2 hc hrest
    have ha : Apart (e.layout false indent ++ _) := Expr.apart e he hg.2.1 hstop hapart
    simp only [commaExprsLayout, List.cons_append, List.append_assoc]
    exact ⟨stops_comma, ends_lone (by decide) _, (Expr.begins indent he).visible ha, ha⟩

theorem Table.apart {indent : Int} {rest : List Item} :
    ∀ t : Table, t.Fits → AllGenuine version t.leaves → Apart rest →
      Apart (t.layout false indent ++ rest)
  | .empty opening closing, _, _, hrest =>
    ⟨ends_lone (by decide) _, ends_lone (by decide) _, hrest⟩
  | .fields opening first more trailing closing, h, hg, hrest => by
    obtain ⟨-, -, hfirst, hmore, -, -⟩ := h
    simp only [Table.leaves, AllGenuine.cons_iff, AllGenuine.append_iff] at hg
    obtain ⟨-, hgfirst, hgmore, -, -⟩ := hg
    have hclose : Apart (closingLine indent :: closing.wordAs "\x7d" :: rest) :=
      ⟨⟨_, _, rfl, by decide⟩, ends_lone (by decide) _, hrest⟩
    have htrailing : Stops (Item.opening (trailing.toList.map Leaf.omitted ++
          (closingLine indent :: closing.wordAs "\x7d" :: rest))) ∧
        Apart (trailing.toList.map Leaf.omitted ++
          (closingLine indent :: closing.wordAs "\x7d" :: rest)) := by
      cases trailing with
      | none => exact ⟨stops_line, hclose⟩
      | some separator => exact ⟨stops_line, hclose⟩
    have hfields : Stops _ ∧ Apart (commaFieldsLayout false (indent + indentStep) more ++ _) :=
      fieldsApart more hmore hgmore htrailing.1 htrailing.2
    have hf : Visible _ ∧ Apart (first.layout false (indent + indentStep) ++ _) :=
      Field.apart first hfirst hgfirst hfields.1 hfields.2
    simp only [Table.layout, List.cons_append, List.append_assoc, List.nil_append]
    exact ⟨ends_lone (by decide) _, hf⟩

theorem fieldsApart {next : Option Token} {indent : Int} {rest : List Item} :
    ∀ more : List (Leaf × Field), FieldsFit next more →
      AllGenuine version (fieldsLeaves more) → Stops (Item.opening rest) → Apart rest →
      Stops (Item.opening (commaFieldsLayout false indent more ++ rest)) ∧
        Apart (commaFieldsLayout false indent more ++ rest)
  | [], _, _, hc, hrest => ⟨hc, hrest⟩
  | (separator, f) :: more, h, hg, hc, hrest => by
    obtain ⟨-, -, hf, hmore⟩ := h
    simp only [fieldsLeaves, AllGenuine.cons_iff, AllGenuine.append_iff] at hg
    obtain ⟨hstop, hapart⟩ := fieldsApart more hmore hg.2.2 hc hrest
    have ha : Visible _ ∧ Apart (f.layout false indent ++ _) :=
      Field.apart f hf hg.2.1 hstop hapart
    simp only [commaFieldsLayout, List.cons_append, List.append_assoc]
    exact ⟨stops_comma, ends_lone (by decide) _, ha⟩

theorem Field.apart {next : Option Token} {indent : Int} {rest : List Item} :
    ∀ f : Field, f.Fits next → AllGenuine version f.leaves → Stops (Item.opening rest) →
      Apart rest → Visible (f.layout false indent ++ rest) ∧ Apart (f.layout false indent ++ rest)
  | .keyed opening key closing equals value, h, hg, hc, hrest => by
    obtain ⟨-, hkey, -, -, hvalue⟩ := h
    simp only [Field.leaves, AllGenuine.cons_iff, AllGenuine.append_iff] at hg
    obtain ⟨-, hgkey, -, -, hgvalue⟩ := hg
    have hv : Apart (value.layout false indent ++ rest) := Expr.apart value hvalue hgvalue hc hrest
    have hequals : Apart (.space :: equals.wordAs "=" :: .space ::
        (value.layout false indent ++ rest)) :=
      spaced_equals ((Expr.begins indent hvalue).visible hv) hv
    simp only [Field.layout, List.cons_append, List.append_assoc]
    exact ⟨⟨_, _, rfl, by decide⟩, index_apart hkey hgkey.head
      (fun hc hrest => Expr.apart key hkey hgkey hc hrest) hequals⟩
  | .named name equals value, h, hg, hc, hrest => by
    obtain ⟨hname, -, hvalue⟩ := h
    simp only [Field.leaves, AllGenuine.cons_iff] at hg
    obtain ⟨hgname, -, hgvalue⟩ := hg
    have hv : Apart (value.layout false indent ++ rest) := Expr.apart value hvalue hgvalue hc hrest
    simp only [Field.layout, List.cons_append]
    exact ⟨hgname.starts, hname.endsNames hgname ' ' (by decide),
      spaced_equals ((Expr.begins indent hvalue).visible hv) hv⟩
  | .positional value, h, hg, hc, hrest => by
    have hv : Apart (value.layout false indent ++ rest) := Expr.apart value h.1 hg hc hrest
    exact ⟨(Expr.begins indent h.1).visible hv, hv⟩

theorem Body.apart {indent : Int} {rest : List Item} :
    ∀ b : Body, b.Fits → AllGenuine version b.leaves →
      Text.isNamePart (Item.opening rest) = false → Apart rest →
      Apart (b.layout false indent ++ rest)
  | .mk parameters block closing, h, hg, hc, hrest => by
    obtain ⟨hparameters, hblock, -⟩ := h
    simp only [Body.leaves, AllGenuine.append_iff] at hg
    have hclose : Apart (closeBlock indent "end" closing ++ rest) :=
      closeBlock_apart (by decide) hc hrest
    simp only [Body.layout, List.append_assoc]
    exact Parameters.apart hparameters hg.1 (Block.apart block hblock hg.2.1 rfl hclose)

theorem Block.apart {next : Option Token} {indent : Int} {rest : List Item} :
    ∀ b : Block, b.Fits next → AllGenuine version b.leaves → Item.opening rest = '\n' →
      Apart rest → Apart (b.layout false indent ++ rest)
  | .mk statements, h, hg, hc, hrest => statementsApart statements h hg hc hrest

theorem statementsApart {next : Option Token} {indent : Int} {blank : Bool} {rest : List Item} :
    ∀ xs : List Stat, StatementsFit next xs → AllGenuine version (statementsLeaves xs) →
      Item.opening rest = '\n' → Apart rest → Apart (statementsLayout false indent blank xs ++ rest)
  | [], _, _, _, hrest => hrest
  | x :: more, h, hg, hc, hrest => by
    obtain ⟨-, hx, hmore⟩ := h
    obtain ⟨hgx, hgmore⟩ := AllGenuine.append_iff.1 hg
    have hapart : Apart (statementsLayout false indent x.declaresFunction more ++ rest) :=
      statementsApart more hmore hgmore hc hrest
    simp only [statementsLayout, List.cons_append, List.append_assoc]
    exact Stat.apart x hx hgx (statements_opening hc) hapart

theorem Stat.apart {next : Option Token} {indent : Int} {rest : List Item} :
    ∀ x : Stat, x.Fits next → AllGenuine version x.leaves → Item.opening rest = '\n' →
      Apart rest → Visible (x.layout false indent ++ rest) ∧ Apart (x.layout false indent ++ rest)
  | .breakLoop word, _, _, hc, hrest => visible_fixed (by decide) (hc ▸ by decide) hrest
  | .goto word target, h, hg, hc, hrest => by
    simp only [Stat.leaves, AllGenuine.cons_iff] at hg
    exact visible_fixed (by decide) (show Text.isNamePart ' ' = false by decide)
      ⟨hg.2.1.starts, h.2.endsNames hg.2.1 _ (hc ▸ by decide), hrest⟩
  | .label opening name closing, h, hg, hc, hrest => by
    simp only [Stat.leaves, AllGenuine.cons_iff] at hg
    exact ⟨⟨_, _, rfl, by decide⟩, ends_lone (by decide) _,
      h.2.1.endsNames hg.2.1 _ (show Text.isNamePart ':' = false by decide),
      ends_lone (by decide) _, hrest⟩
  | .empty semicolon, _, _, _, hrest =>
    ⟨⟨_, _, rfl, by decide⟩, ends_lone (by decide) _, hrest⟩
  | .doBlock word block closing, h, hg, hc, hrest => by
    obtain ⟨-, hblock, -⟩ := h
    simp only [Stat.leaves, AllGenuine.cons_iff, AllGenuine.append_iff] at hg
    simp only [Stat.layout, List.cons_append, List.append_assoc]
    exact visible_block (by decide) (by decide)
      (fun hc hrest => Block.apart block hblock hg.2.1 hc hrest) (hc ▸ by decide) hrest
  | .whileLoop word condition opening block closing, h, hg, hc, hrest => by
    obtain ⟨-, hcondition, -, hblock, -⟩ := h
    simp only [Stat.leaves, AllGenuine.cons_iff, AllGenuine.append_iff] at hg
    obtain ⟨-, hgcondition, -, hgblock, -⟩ := hg
    have hdo : Visible _ ∧ Apart (opening.wordAs "do" ::
        (block.layout false (indent + indentStep) ++ (closeBlock indent "end" closing ++ rest))) :=
      loopBody_apart (fun hc hrest => Block.apart block hblock hgblock hc hrest) hc hrest
    have hc : Apart (condition.layout false indent ++ .space :: _) :=
      Expr.apart condition hcondition hgcondition stops_space hdo
    simp only [Stat.layout, List.cons_append, List.append_assoc]
    exact visible_fixed_space (by decide) ((Expr.begins indent hcondition).visible hc) hc
  | .repeatLoop word block closing condition, h, hg, hc, hrest => by
    obtain ⟨-, hblock, -, hcondition⟩ := h
    simp only [Stat.leaves, AllGenuine.cons_iff, AllGenuine.append_iff] at hg
    obtain ⟨-, hgblock, -, hgcondition⟩ := hg
    have hlast : Apart (condition.layout false indent ++ rest) :=
      Expr.apart condition hcondition hgcondition (hc ▸ stops_line) hrest
    simp only [Stat.layout, List.cons_append, List.append_assoc]
    exact visible_block (by decide) (by decide)
      (fun hc hrest => Block.apart block hblock hgblock hc hrest)
      (show Text.isNamePart ' ' = false by decide)
      ⟨(Expr.begins indent hcondition).visible hlast, hlast⟩
  | .conditional first more otherwise closing, h, hg, hc, hrest => by
    obtain ⟨-, hfirst, hmore, hotherwise, -⟩ := h
    simp only [Stat.leaves, AllGenuine.append_iff] at hg
    obtain ⟨hgfirst, hgmore, hgotherwise, -⟩ := hg
    have hclose : Apart (closeBlock indent "end" closing ++ rest) :=
      closeBlock_apart (by decide) (hc ▸ by decide) hrest
    obtain ⟨hline, ho⟩ := otherwiseApart otherwise hotherwise hgotherwise rfl hclose
    obtain ⟨hline', hm⟩ := branchesApart more hmore hgmore hline ho
    simp only [Stat.layout, List.append_assoc]
    exact Branch.apart (by decide) first hfirst hgfirst hline' hm
  | .countingLoop word name equals start comma stop step opening block closing, h, hg, hc, hrest => by
    obtain ⟨-, hname, -, hstart, -, hstop, hstep, -, hblock, -⟩ := h
    simp only [Stat.leaves, AllGenuine.cons_iff, AllGenuine.append_iff] at hg
    obtain ⟨-, hgname, -, hgstart, -, hgstop, hgstep, -, hgblock, -⟩ := hg
    exact countingLoop_apart hname hgname hstart hstop
      (fun hc hrest => Expr.apart start hstart hgstart hc hrest)
      (fun hc hrest => Expr.apart stop hstop hgstop hc hrest)
      (fun hc hrest => stepApart step hstep hgstep hc hrest)
      (fun hc hrest => Block.apart block hblock hgblock hc hrest) hc hrest
  | .iteration word name more between values opening block closing, h, hg, hc, hrest => by
    obtain ⟨-, hname, hnames, -, hvalues, -, hblock, -⟩ := h
    simp only [Stat.leaves, AllGenuine.cons_iff, AllGenuine.append_iff] at hg
    obtain ⟨-, hgname, hgnames, -, hgvalues, -, hgblock, -⟩ := hg
    exact iteration_apart hname hgname (hnames.endsNames hgnames) hvalues
      (fun hc hrest => Exprs.apart values hvalues hgvalues hc hrest)
      (fun hc hrest => Block.apart block hblock hgblock hc hrest) hc hrest
  | .function word name path method body, h, hg, hc, hrest => by
    obtain ⟨-, hname, hpath, hmethod, hbody⟩ := h
    simp only [Stat.leaves, ← Leaf.ofPairs_toList, AllGenuine.cons_iff, AllGenuine.append_iff] at hg
    obtain ⟨-, hgname, hgpath, hgmethod, hgbody⟩ := hg
    have hb : Apart (body.layout false indent ++ rest) :=
      Body.apart body hbody hgbody (hc ▸ by decide) hrest
    obtain ⟨hcolon, hm⟩ := path_apart (by simp) hmethod hgmethod (Body.opening_eq body ▸ by decide) hb
    obtain ⟨hdot, hp⟩ := path_apart (by simp) hpath hgpath hcolon hm
    simp only [Stat.layout, List.cons_append, List.append_assoc]
    exact visible_fixed_space (by decide) hgname.starts ⟨hname.endsNames hgname _ hdot, hp⟩
  | .localFunction word function name body, h, hg, hc, hrest => by
    obtain ⟨-, -, hname, hbody⟩ := h
    simp only [Stat.leaves, AllGenuine.cons_iff] at hg
    obtain ⟨-, -, hgname, hgbody⟩ := hg
    have hb : Apart (body.layout false indent ++ rest) :=
      Body.apart body hbody hgbody (hc ▸ by decide) hrest
    have hn : Visible (name.word :: (body.layout false indent ++ rest)) ∧
        Apart (name.word :: (body.layout false indent ++ rest)) :=
      ⟨hgname.starts, hname.endsNames hgname _ (Body.opening_eq body ▸ by decide), hb⟩
    have hf : Visible _ ∧ Apart (function.wordAs "function" :: .space :: _) :=
      visible_fixed_space (by decide) hn.1 hn.2
    simp only [Stat.layout, List.cons_append]
    exact visible_fixed_space (by decide) hf.1 hf.2
  | .localNames word first more none, h, hg, hc, hrest => by
    obtain ⟨-, -, hfirst, hmore, -⟩ := h
    simp only [Stat.leaves, AllGenuine.cons_iff, AllGenuine.append_iff] at hg
    obtain ⟨-, hgfirst, hgmore⟩ := hg
    obtain ⟨hnext, hm⟩ := LocalName.more_apart hmore hgmore (.inr (.inr hc)) hrest
    simp only [Stat.layout, List.cons_append, List.append_assoc]
    exact visible_fixed_space (by decide) (LocalName.visible hfirst hgfirst)
      (LocalName.apart hfirst hgfirst hnext hm)
  | .localNames word first more (some (equals, values)), h, hg, hc, hrest => by
    obtain ⟨-, -, hfirst, hmore, -, hvalues⟩ := h
    simp only [Stat.leaves, AllGenuine.cons_iff, AllGenuine.append_iff] at hg
    obtain ⟨-, hgfirst, hgmore, -, hgvalues⟩ := hg
    have hv : Apart (values.layout false indent ++ rest) :=
      Exprs.apart values hvalues hgvalues (hc ▸ stops_line) hrest
    have hequals : Apart (.space :: equals.wordAs "=" :: .space ::
        (values.layout false indent ++ rest)) := spaced_equals (Exprs.visible hvalues hv) hv
    obtain ⟨hnext, hm⟩ := LocalName.more_apart hmore hgmore (.inr (.inl rfl)) hequals
    simp only [Stat.layout, List.cons_append, List.append_assoc]
    exact visible_fixed_space (by decide) (LocalName.visible hfirst hgfirst)
      (LocalName.apart hfirst hgfirst hnext hm)
  | .result word none, _, _, hc, hrest => visible_fixed (by decide) (hc ▸ by decide) hrest
  | .result word (some values), h, hg, hc, hrest => by
    have hv : Apart (values.layout false indent ++ rest) :=
      Exprs.apart values h.2.2 (AllGenuine.cons_iff.1 hg).2 (hc ▸ stops_line) hrest
    simp only [Stat.layout, List.cons_append]
    exact visible_fixed_space (by decide) (Exprs.visible h.2.2 hv) hv
  | .assignment first more equals values, h, hg, hc, hrest => by
    obtain ⟨-, hfirst, -, hmore, -, hvalues⟩ := h
    simp only [Stat.leaves, AllGenuine.cons_iff, AllGenuine.append_iff] at hg
    obtain ⟨hgfirst, hgmore, -, hgvalues⟩ := hg
    have hv : Apart (values.layout false indent ++ rest) :=
      Exprs.apart values hvalues hgvalues (hc ▸ stops_line) hrest
    have hequals : Apart (.space :: equals.wordAs "=" :: .space ::
        (values.layout false indent ++ rest)) := spaced_equals (Exprs.visible hvalues hv) hv
    have hspace : Text.isNamePart ' ' = false := by decide
    have hm : _ ∧ Apart (commaAccessesLayout false indent more ++ .space :: _) :=
      commaAccessesApart more hmore hgmore hspace hequals
    have hf : Apart (first.layout false indent ++ _) := Access.apart first hfirst hgfirst hm.1 hm.2
    simp only [Stat.layout, List.append_assoc, List.cons_append]
    exact ⟨(Access.begins indent hfirst).visible hf, hf⟩
  | .call callee, h, hg, hc, hrest => by
    have ha : Apart (callee.layout false indent ++ rest) :=
      Access.apart callee h.2.1 hg (hc ▸ by decide) hrest
    exact ⟨(Access.begins indent h.2.1).visible ha, ha⟩

theorem commaAccessesApart {next : Option Token} {indent : Int} {rest : List Item} :
    ∀ more : List (Leaf × Access), CommaAccessesFit next more →
      AllGenuine version (commaAccessesLeaves more) →
      Text.isNamePart (Item.opening rest) = false → Apart rest →
      Text.isNamePart (Item.opening (commaAccessesLayout false indent more ++ rest)) = false ∧
        Apart (commaAccessesLayout false indent more ++ rest)
  | [], _, _, hc, hrest => ⟨hc, hrest⟩
  | (comma, a) :: more, h, hg, hc, hrest => by
    obtain ⟨-, ha, -, hmore⟩ := h
    simp only [commaAccessesLeaves, AllGenuine.cons_iff, AllGenuine.append_iff] at hg
    have hm : _ ∧ Apart (commaAccessesLayout false indent more ++ rest) :=
      commaAccessesApart more hmore hg.2.2 hc hrest
    have hfirst : Apart (a.layout false indent ++ _) := Access.apart a ha hg.2.1 hm.1 hm.2
    have hcomma : Text.isNamePart ',' = false := by decide
    simp only [commaAccessesLayout, List.cons_append, List.append_assoc]
    exact ⟨hcomma, ends_lone (by decide) _, (Access.begins indent ha).visible hfirst, hfirst⟩

theorem Branch.apart {next : Option Token} {indent : Int} {text : String} {rest : List Item}
    (htext : isWord text.toList = true) :
    ∀ b : Branch, b.Fits next → AllGenuine version b.leaves → Item.opening rest = '\n' →
      Apart rest →
      Visible (b.layout false indent text ++ rest) ∧ Apart (b.layout false indent text ++ rest)
  | .mk word condition opening block, h, hg, hc, hrest => by
    obtain ⟨hcondition, -, hblock⟩ := h
    simp only [Branch.leaves, AllGenuine.cons_iff, AllGenuine.append_iff] at hg
    obtain ⟨-, hgcondition, -, hgblock⟩ := hg
    have hb : Apart (block.layout false (indent + indentStep) ++ rest) :=
      Block.apart block hblock hgblock hc hrest
    have hthen : Visible _ ∧ Apart (opening.wordAs "then" ::
        (block.layout false (indent + indentStep) ++ rest)) :=
      visible_fixed (by decide) (Block.opening_eq block hc ▸ by decide) hb
    have hcond : Apart (condition.layout false indent ++ .space :: _) :=
      Expr.apart condition hcondition hgcondition stops_space hthen
    simp only [Branch.layout, List.cons_append, List.append_assoc]
    exact visible_fixed_space htext ((Expr.begins indent hcondition).visible hcond) hcond

theorem branchesApart {next : Option Token} {indent : Int} {rest : List Item} :
    ∀ bs : List Branch, BranchesFit next bs → AllGenuine version (branchesLeaves bs) →
      Item.opening rest = '\n' → Apart rest →
      Item.opening (branchesLayout false indent bs ++ rest) = '\n' ∧
        Apart (branchesLayout false indent bs ++ rest)
  | [], _, _, hc, hrest => ⟨hc, hrest⟩
  | b :: more, h, hg, hc, hrest => by
    obtain ⟨-, hb, hmore⟩ := h
    obtain ⟨hgb, hgmore⟩ := AllGenuine.append_iff.1 hg
    obtain ⟨hline, hapart⟩ := branchesApart more hmore hgmore hc hrest
    simp only [branchesLayout, List.cons_append, List.append_assoc]
    exact ⟨rfl, Branch.apart (by decide) b hb hgb hline hapart⟩

theorem otherwiseApart {next : Option Token} {indent : Int} {rest : List Item} :
    ∀ otherwise : Option (Leaf × Block), OtherwiseFits next otherwise →
      AllGenuine version (otherwiseLeaves otherwise) → Item.opening rest = '\n' → Apart rest →
      Item.opening (otherwiseLayout false indent otherwise ++ rest) = '\n' ∧
        Apart (otherwiseLayout false indent otherwise ++ rest)
  | none, _, _, hc, hrest => ⟨hc, hrest⟩
  | some (word, block), h, hg, hc, hrest => by
    have hb : Apart (block.layout false (indent + indentStep) ++ rest) :=
      Block.apart block h.2 (AllGenuine.cons_iff.1 hg).2 hc hrest
    simp only [otherwiseLayout, List.append_assoc]
    exact ⟨rfl, closeBlock_apart (by decide) (Block.opening_eq block hc ▸ by decide) hb⟩

theorem stepApart {next : Option Token} {indent : Int} {rest : List Item} :
    ∀ step : Option (Leaf × Expr), StepFits next step → AllGenuine version (stepLeaves step) →
      Stops (Item.opening rest) → Apart rest →
      Stops (Item.opening (stepLayout false indent step ++ rest)) ∧
        Apart (stepLayout false indent step ++ rest)
  | none, _, _, hc, hrest => ⟨hc, hrest⟩
  | some (comma, step), h, hg, hc, hrest => by
    have hs : Apart (step.layout false indent ++ rest) :=
      Expr.apart step h.2 (AllGenuine.cons_iff.1 hg).2 hc hrest
    simp only [stepLayout, List.cons_append]
    exact ⟨stops_comma, ends_lone (by decide) _, (Expr.begins indent h.2).visible hs, hs⟩

end

end LuaLayout
