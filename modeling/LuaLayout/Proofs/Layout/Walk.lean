/-
LuaLayout.Proofs.Layout.Walk — following a layout from word to word.

What a layout says of its lines is told by the tree: how deep they stand, and
where one is left blank. To say the same of the words alone, a property follows
them with what they lead to: the scope, and the indentation of a line that has
just been started. `Walks` lists the steps that a layout is made of. A property
that is kept by each of them is kept by the layout of every part of a tree. What
comes after a part is a parameter, so each part has to give back the scope that it
was given; only the scope after a statement tells whether it declared a function.
-/
import LuaLayout.Proofs.Layout.Scopes
import LuaLayout.Proofs.Layout.Spelled

namespace LuaLayout

open Item (texts)

/-! ## 1. Steps -/

/-- The indentation is that of the depth. -/
structure Level (indent depth : Int) : Prop where
  nonneg : 0 ≤ depth
  eq_mul : indent = indentStep * depth

theorem Level.inner {indent depth : Int} (h : Level indent depth) :
    Level (indent + indentStep) (depth + 1) where
  nonneg := Int.le_trans h.nonneg (Int.le_add_one (Int.le_refl _))
  eq_mul := by rw [h.eq_mul, Int.mul_add, Int.mul_one]

theorem Level.indent_nonneg {indent depth : Int} (h : Level indent depth) : 0 ≤ indent := by
  rw [h.eq_mul]
  exact Int.mul_nonneg (by decide) h.nonneg

/-- The line that has just been started, if there is one, is as deep as what is open. -/
def OnMargin (named : List Bool) (start : Option Int) : Prop := ∀ i ∈ start, Level i named.length

theorem onMargin_none {named : List Bool} : OnMargin named none := nofun

theorem onMargin_some {named : List Bool} {indent : Int} (h : Level indent named.length) :
    OnMargin named (some indent) := by
  rintro i ⟨⟩
  exact h

/-- A word that begins a statement, rather than end the block that it stands in. -/
def startsStatement (word : Option String) : Bool := word.any (!Vocabulary.blockEnds.contains ·)

/-- The property is kept by the steps of a layout, each said for what comes after it. -/
structure Walks (version : Version) (P : Option Int → Scope → List Item → Prop) : Prop where
  /-- A word that opens and closes nothing. -/
  quiet {start : Option Int} {named : List Bool} {text : String} {remarks : List String}
    {items : List Item} : text ∉ openers ++ closers → OnMargin named start →
    P none ⟨named, false, false⟩ items →
    P start ⟨named, false, false⟩ (.word text remarks :: items)
  /-- The bracket before parameters, where a name may have been awaited. -/
  parameters {named : List Bool} {opened : Bool} {remarks : List String} {items : List Item} :
    P none ⟨named, false, false⟩ items → P none ⟨named, opened, false⟩ (.word "(" remarks :: items)
  /-- The name of a function that is declared. -/
  name {named : List Bool} {known : Bool} {l : Leaf} {items : List Item} : l.IsName →
    l.token.Genuine version → P none ⟨true :: named, false, false⟩ items →
    P none ⟨known :: named, true, false⟩ (l.word :: items)
  /-- A word that opens a construct without a name. -/
  opener {start : Option Int} {named : List Bool} {text : String} {remarks : List String}
    {items : List Item} : text ∈ openers ∧ text ∉ closers → OnMargin named start →
    P none ⟨false :: named, text == "function", false⟩ items →
    P start ⟨named, false, false⟩ (.word text remarks :: items)
  /-- A word that closes a construct and opens none. -/
  closer {start : Option Int} {named : List Bool} {known : Bool} {text : String}
    {remarks : List String} {items : List Item} : text ∈ closers ∧ text ∉ openers →
    OnMargin named start → P none ⟨named, false, text == "end" && known⟩ items →
    P start ⟨known :: named, false, false⟩ (.word text remarks :: items)
  /-- A word that closes a branch and opens the last one. -/
  otherwise {start : Option Int} {named : List Bool} {known : Bool} {remarks : List String}
    {items : List Item} : OnMargin named start → P none ⟨false :: named, false, false⟩ items →
    P start ⟨known :: named, false, false⟩ (.word "else" remarks :: items)
  /-- A token that is left out. -/
  omitted {named : List Bool} {remarks : List String} {items : List Item} :
    P none ⟨named, false, false⟩ items → P none ⟨named, false, false⟩ (.omitted remarks :: items)
  space {named : List Bool} {opened : Bool} {items : List Item} :
    P none ⟨named, opened, false⟩ items → P none ⟨named, opened, false⟩ (.space :: items)
  /-- A line, which is left blank between a declared function and a statement. -/
  line {named : List Bool} {declared blank : Bool} {indent noteIndent : Int} {items : List Item} :
    Level noteIndent named.length → blank = (declared && startsStatement (texts items).head?) →
    P (some indent) ⟨named, false, false⟩ items →
    P none ⟨named, false, declared⟩ (.line indent noteIndent blank :: items)

namespace Walks

variable {version : Version} {P : Option Int → Scope → List Item → Prop} {start : Option Int}
  {named : List Bool} {opened declared known b : Bool} {indent : Int} {text : String}
  {remarks : List String} {items : List Item}

theorem neutral (hP : Walks version P) (htext : Neutral text) (hline : OnMargin named start)
    (h : P none ⟨named, false, false⟩ items) :
    P start ⟨named, false, false⟩ (.word text remarks :: items) :=
  hP.quiet (fun hmem => htext (List.mem_append_left _ hmem)) hline h

/-- A word inside a line. -/
theorem inner (hP : Walks version P) (h : P none ⟨named, false, false⟩ items)
    (hquiet : text ∉ openers ++ closers := by decide) :
    P none ⟨named, false, false⟩ (.word text remarks :: items) :=
  hP.quiet hquiet onMargin_none h

theorem innerNeutral (hP : Walks version P) (htext : Neutral text)
    (h : P none ⟨named, false, false⟩ items) :
    P none ⟨named, false, false⟩ (.word text remarks :: items) :=
  hP.neutral htext onMargin_none h

theorem innerOpener (hP : Walks version P)
    (h : P none ⟨false :: named, text == "function", false⟩ items)
    (hopens : text ∈ openers ∧ text ∉ closers := by decide) :
    P none ⟨named, false, false⟩ (.word text remarks :: items) :=
  hP.opener hopens onMargin_none h

theorem spaceIf (hP : Walks version P) (h : P none ⟨named, opened, false⟩ items) :
    P none ⟨named, opened, false⟩ (LuaLayout.spaceIf b ++ items) := by
  cases b with
  | true => exact hP.space h
  | false => exact h

/-- A line after anything but a statement. -/
theorem newLine (hP : Walks version P) (hlevel : Level indent named.length)
    (h : P (some indent) ⟨named, false, false⟩ items) :
    P none ⟨named, false, false⟩ (LuaLayout.newLine indent :: items) :=
  hP.line hlevel rfl h

/-- The line of a word that closes a block, which is never left blank. -/
theorem closingLine (hP : Walks version P) (hlevel : Level indent named.length)
    (h : P (some indent) ⟨known :: named, false, false⟩ (.word text remarks :: items))
    (hends : text ∈ Vocabulary.blockEnds := by decide) :
    P none ⟨known :: named, false, declared⟩
      (LuaLayout.closingLine indent :: .word text remarks :: items) := by
  have hplain : ∀ text ∈ Vocabulary.blockEnds, unsign text = [text] := by decide
  refine hP.line (by simpa using hlevel.inner) ?_ h
  rw [texts, hplain text hends, List.singleton_append, List.head?_cons, startsStatement,
    Option.any_some, List.contains_iff_mem.2 hends, Bool.not_true, Bool.and_false]

/-- The `end` of a block. -/
theorem closeBlock {closing : Leaf} (hP : Walks version P) (hlevel : Level indent named.length)
    (h : P none ⟨named, false, known⟩ items) :
    P none ⟨known :: named, false, declared⟩
      (LuaLayout.closingLine indent :: closing.wordAs "end" :: items) :=
  hP.closingLine hlevel (hP.closer (by decide) (onMargin_some hlevel) h)

/-- The block of a loop between its words, given by what it does in front of other items. -/
theorem loopBody {opening closing : Leaf} {block : Block} (hP : Walks version P)
    (hlevel : Level indent named.length)
    (hblock : ∀ {named : List Bool} {items : List Item}, Level (indent + indentStep) named.length →
      (∀ declared, P none ⟨named, false, declared⟩ items) →
      P none ⟨named, false, false⟩ (block.layout false (indent + indentStep) ++ items))
    (h : P none ⟨named, false, false⟩ items) :
    P none ⟨named, false, false⟩ (.space :: opening.wordAs "do" ::
      (block.layout false (indent + indentStep) ++
        LuaLayout.closingLine indent :: closing.wordAs "end" :: items)) := by
  have hinside : P none ⟨false :: named, false, false⟩ (block.layout false (indent + indentStep) ++
      LuaLayout.closingLine indent :: closing.wordAs "end" :: items) :=
    hblock (by simpa using hlevel.inner) fun _ => hP.closeBlock hlevel h
  exact hP.space (hP.innerOpener hinside (by decide))

end Walks

/-! ## 2. Parts without expressions -/

variable {version : Version} {P : Option Int → Scope → List Item → Prop} {next : Option Token}
  {named : List Bool} {items : List Item}

theorem commaNames_walk (hP : Walks version P) : ∀ {more : List (Leaf × Leaf)},
    (∀ p ∈ more, p.1.Says "," ∧ Neutral p.2.token.text) →
    P none ⟨named, false, false⟩ items → P none ⟨named, false, false⟩ (commaNames more ++ items)
  | [], _, hrest => hrest
  | (_, _) :: _, h, hrest =>
    have hmore := commaNames_walk hP (List.forall_mem_cons.1 h).2 hrest
    hP.inner (hP.space (hP.innerNeutral (List.forall_mem_cons.1 h).1.2 hmore))

theorem Parameters.walk {p : Parameters} {opened : Bool} (hP : Walks version P) (h : p.Fits)
    (hg : AllGenuine version p.leaves) (hrest : P .none ⟨named, false, false⟩ items) :
    P .none ⟨named, opened, false⟩ (p.layout ++ items) := by
  cases p with
  | none opening closing => exact hP.parameters (hP.inner hrest)
  | some opening first more closing =>
    obtain ⟨-, -, -, hfirst⟩ := h
    simp only [Parameters.leaves, List.cons_append, AllGenuine.cons_iff, AllGenuine.append_iff] at hg
    obtain ⟨-, hgfirst, hgmore, -⟩ := hg
    have hneutral : Neutral first.token.text ∧ ∀ p ∈ more, p.1.Says "," ∧ Neutral p.2.token.text := by
      rcases hfirst with ⟨hdots, rfl⟩ | ⟨hname, hmore⟩
      · exact ⟨neutral_ellipsis hdots hgfirst, by simp⟩
      · exact ⟨hgfirst.neutral_name hname, hmore.neutral hgmore⟩
    simp only [Parameters.layout, List.cons_append, List.append_assoc, List.nil_append]
    exact hP.parameters (hP.innerNeutral hneutral.1
      (commaNames_walk hP hneutral.2 (hP.inner hrest)))

theorem LocalName.walk {n : LocalName} (hP : Walks version P) (h : n.Fits next)
    (hg : AllGenuine version n.leaves) (hrest : P none ⟨named, false, false⟩ items) :
    P none ⟨named, false, false⟩ (n.layout ++ items) := by
  obtain ⟨name, _ | mark⟩ := n
  · exact hP.innerNeutral ((hg name (by simp [LocalName.leaves])).neutral_name h.1) hrest
  · obtain ⟨hname, -, hword, -⟩ := h
    simp only [LocalName.leaves, Option.map_some, Option.getD_some, Mark.leaves,
      AllGenuine.cons_iff] at hg
    obtain ⟨hgname, -, hgword, -⟩ := hg
    exact hP.innerNeutral (hgname.neutral_name hname) (hP.space (hP.inner
      (hP.innerNeutral (hgword.neutral_name hword) (hP.inner hrest))))

theorem LocalName.more_walk {next : Option Token} (hP : Walks version P) :
    ∀ {more : List (Leaf × LocalName)},
    MoreFit next more → AllGenuine version (Leaf.ofPairs LocalName.leaves more) →
    P none ⟨named, false, false⟩ items → P none ⟨named, false, false⟩ (moreLayout more ++ items)
  | [], _, _, hrest => hrest
  | (comma, n) :: more, h, hg, hrest => by
    obtain ⟨-, hn, hmore⟩ := h
    simp only [Leaf.ofPairs, List.cons_append, AllGenuine.cons_iff, AllGenuine.append_iff] at hg
    obtain ⟨-, hgn, hgmore⟩ := hg
    have hlater := LocalName.walk hP hn hgn (LocalName.more_walk hP hmore hgmore hrest)
    simp only [moreLayout, List.flatMap_cons, List.cons_append, List.append_assoc] at hlater ⊢
    exact hP.inner (hP.space hlater)

/-- Names after points or colons. -/
theorem path_walk {separator : String} (hP : Walks version P)
    (hseparator : separator ∉ openers ++ closers) :
    ∀ {path : List (Leaf × Leaf)}, (∀ p ∈ path, p.1.Says separator ∧ Neutral p.2.token.text) →
    P none ⟨named, false, false⟩ items →
    P none ⟨named, false, false⟩
      (path.flatMap (fun (mark, part) => [mark.wordAs separator, part.word]) ++ items)
  | [], _, hrest => hrest
  | (_, _) :: _, h, hrest =>
    have hmore := path_walk hP hseparator (List.forall_mem_cons.1 h).2 hrest
    hP.inner (hP.innerNeutral (List.forall_mem_cons.1 h).1.2 hmore) hseparator

/-- A statement of a block begins with a word that says so. -/
theorem Stat.starts {x : Stat} {indent : Int} (h : x.Fits next) (hg : AllGenuine version x.leaves)
    (hfront : (Leaf.front x.leaves none).all Parser.endsBlock = false) :
    startsStatement (texts (x.layout false indent ++ items)).head? = true := by
  obtain ⟨l, ls, hl, ⟨remarks, rest, hlayout⟩, hplain, -⟩ := Stat.begins indent h hg
  rw [hl, Leaf.front_cons, Option.all_some] at hfront
  rw [hlayout, List.cons_append, texts, hplain, List.singleton_append, List.head?_cons,
    startsStatement, Option.any_some, Bool.not_eq_true', ← Bool.not_eq_true, List.contains_iff_mem]
  intro hmem
  have hkeywords : ∀ w ∈ Vocabulary.blockEnds, w ∈ Vocabulary.baseKeywords := by decide
  have hkeyword := (hg l (by simp [hl])).isKeyword_of_text (hkeywords _ hmem) rfl
  rw [Parser.endsBlock, (Token.isKeyword_iff.1 hkeyword).1, List.contains_iff_mem.2 hmem] at hfront
  cases hfront

/-! ## 3. Expressions and statements -/

mutual

theorem Expr.walk {limit : Int} {next : Option Token} {indent : Int} {start : Option Int}
    {named : List Bool} {items : List Item} (hP : Walks version P) :
    ∀ e : Expr, e.Fits limit next → AllGenuine version e.leaves → Level indent named.length →
      OnMargin named start → P none ⟨named, false, false⟩ items →
      P start ⟨named, false, false⟩ (e.layout false indent ++ items)
  | .mk operand operations, h, hg, hlevel, hline, hrest => by
    obtain ⟨hgoperand, hgoperations⟩ := AllGenuine.append_iff.1 hg
    simp only [Expr.layout, showGroup, Bool.false_eq_true, if_false, List.append_assoc]
    exact Operand.walk hP operand h.1 hgoperand hlevel hline
      (operationsWalk hP operations h.2 hgoperations hlevel hrest)

theorem operationsWalk {limit : Int} {next : Option Token} {indent : Int} {named : List Bool}
    {items : List Item} (hP : Walks version P) :
    ∀ ops : List (Leaf × Expr), OperationsFit limit next ops →
      AllGenuine version (operationsLeaves ops) → Level indent named.length →
      P none ⟨named, false, false⟩ items →
      P none ⟨named, false, false⟩ (operationsLayout false indent ops ++ items)
  | [], _, _, _, hrest => hrest
  | (operator, right) :: more, h, hg, hlevel, hrest => by
    obtain ⟨⟨powers, hpowers, hright⟩, hmore⟩ := h
    simp only [operationsLeaves, AllGenuine.cons_iff, AllGenuine.append_iff] at hg
    obtain ⟨-, hgright, hgmore⟩ := hg
    simp only [operationsLayout, List.cons_append, List.append_assoc]
    exact hP.space (hP.innerNeutral (neutral_binary hpowers) (hP.space
      (Expr.walk hP right hright hgright hlevel onMargin_none
        (operationsWalk hP more hmore hgmore hlevel hrest))))

theorem Operand.walk {next : Option Token} {indent : Int} {start : Option Int}
    {named : List Bool} {items : List Item} (hP : Walks version P) :
    ∀ o : Operand, o.Fits next → AllGenuine version o.leaves → Level indent named.length →
      OnMargin named start → P none ⟨named, false, false⟩ items →
      P start ⟨named, false, false⟩ (o.layout false indent ++ items)
  | .unary operator argument, h, hg, hlevel, hline, hrest => by
    simp only [Operand.layout, List.cons_append, List.append_assoc]
    exact hP.neutral (neutral_unary h.1) hline (hP.spaceIf
      (Expr.walk hP argument h.2 (AllGenuine.cons_iff.1 hg).2 hlevel onMargin_none hrest))
  | .literal _, h, hg, _, hline, hrest =>
    hP.neutral ((AllGenuine.cons_iff.1 hg).1.neutral_literal h) hline hrest
  | .table fields, h, hg, hlevel, hline, hrest => Table.walk hP fields h.2 hg hlevel hline hrest
  | .function word body, h, hg, hlevel, hline, hrest =>
    hP.opener (by decide) hline (Body.walk hP body h.2 (AllGenuine.cons_iff.1 hg).2 hlevel hrest)
  | .access path, h, hg, hlevel, hline, hrest => Access.walk hP path h hg hlevel hline hrest

theorem Access.walk {next : Option Token} {indent : Int} {start : Option Int}
    {named : List Bool} {items : List Item} (hP : Walks version P) :
    ∀ a : Access, a.Fits next → AllGenuine version a.leaves → Level indent named.length →
      OnMargin named start → P none ⟨named, false, false⟩ items →
      P start ⟨named, false, false⟩ (a.layout false indent ++ items)
  | .mk root suffixes, h, hg, hlevel, hline, hrest => by
    obtain ⟨hgroot, hgsuffixes⟩ := AllGenuine.append_iff.1 hg
    simp only [Access.layout, List.append_assoc]
    exact Root.walk hP root h.1 hgroot hlevel hline
      (suffixesWalk hP suffixes h.2 hgsuffixes hlevel hrest)

theorem Root.walk {indent : Int} {start : Option Int} {named : List Bool} {items : List Item}
    (hP : Walks version P) :
    ∀ r : Root, r.Fits → AllGenuine version r.leaves → Level indent named.length →
      OnMargin named start → P none ⟨named, false, false⟩ items →
      P start ⟨named, false, false⟩ (r.layout false indent ++ items)
  | .name _, h, hg, _, hline, hrest =>
    hP.neutral ((AllGenuine.cons_iff.1 hg).1.neutral_name h) hline hrest
  | .group opening inner closing, h, hg, hlevel, hline, hrest => by
    simp only [Root.leaves, AllGenuine.cons_iff, AllGenuine.append_iff] at hg
    simp only [Root.layout, List.cons_append, List.append_assoc, List.nil_append]
    exact hP.quiet (by decide) hline
      (Expr.walk hP inner h.2.1 hg.2.1 hlevel onMargin_none (hP.inner hrest))

theorem suffixesWalk {next : Option Token} {indent : Int} {named : List Bool}
    {items : List Item} (hP : Walks version P) :
    ∀ xs : List Suffix, SuffixesFit next xs → AllGenuine version (suffixesLeaves xs) →
      Level indent named.length → P none ⟨named, false, false⟩ items →
      P none ⟨named, false, false⟩ (suffixesLayout false indent xs ++ items)
  | [], _, _, _, hrest => hrest
  | x :: more, h, hg, hlevel, hrest => by
    obtain ⟨hgx, hgmore⟩ := AllGenuine.append_iff.1 hg
    simp only [suffixesLayout, List.append_assoc]
    exact Suffix.walk hP x h.1 hgx hlevel (suffixesWalk hP more h.2 hgmore hlevel hrest)

theorem Suffix.walk {indent : Int} {named : List Bool} {items : List Item} (hP : Walks version P) :
    ∀ x : Suffix, x.Fits → AllGenuine version x.leaves → Level indent named.length →
      P none ⟨named, false, false⟩ items →
      P none ⟨named, false, false⟩ (x.layout false indent ++ items)
  | .text _, h, hg, _, hrest =>
    hP.space (hP.innerNeutral ((AllGenuine.cons_iff.1 hg).1.neutral_string h) hrest)
  | .member separator name, h, hg, _, hrest => by
    simp only [Suffix.leaves, AllGenuine.cons_iff] at hg
    have hseparator : Neutral separator.token.text := by
      rcases h.1 with hs | hs <;> rw [(Token.isOperator_iff.1 hs).2] <;> decide
    exact hP.innerNeutral hseparator (hP.innerNeutral (hg.2.1.neutral_name h.2) hrest)
  | .index opening key closing, h, hg, hlevel, hrest => by
    simp only [Suffix.leaves, AllGenuine.cons_iff, AllGenuine.append_iff] at hg
    simp only [Suffix.layout, List.cons_append, List.append_assoc, List.nil_append]
    exact hP.inner (hP.spaceIf (Expr.walk hP key h.2.1 hg.2.1 hlevel onMargin_none
      (hP.spaceIf (hP.inner hrest))))
  | .table fields, h, hg, hlevel, hrest => Table.walk hP fields h.2 hg hlevel onMargin_none hrest
  | .call opening none closing, _, _, _, hrest => hP.inner (hP.inner hrest)
  | .call opening (some arguments) closing, h, hg, hlevel, hrest => by
    simp only [Suffix.leaves, AllGenuine.cons_iff, AllGenuine.append_iff] at hg
    simp only [Suffix.layout, List.cons_append, List.append_assoc, List.nil_append]
    exact hP.inner (Exprs.walk hP arguments h.2.2.1 hg.2.1 hlevel (hP.inner hrest))

theorem Exprs.walk {next : Option Token} {indent : Int} {named : List Bool}
    {items : List Item} (hP : Walks version P) :
    ∀ es : Exprs, es.Fits next → AllGenuine version es.leaves → Level indent named.length →
      P none ⟨named, false, false⟩ items →
      P none ⟨named, false, false⟩ (es.layout false indent ++ items)
  | .mk first more, h, hg, hlevel, hrest => by
    obtain ⟨hgfirst, hgmore⟩ := AllGenuine.append_iff.1 hg
    simp only [Exprs.layout, List.append_assoc]
    exact Expr.walk hP first h.1 hgfirst hlevel onMargin_none
      (commaExprsWalk hP more h.2 hgmore hlevel hrest)

theorem commaExprsWalk {next : Option Token} {indent : Int} {named : List Bool}
    {items : List Item} (hP : Walks version P) :
    ∀ more : List (Leaf × Expr), CommaExprsFit next more →
      AllGenuine version (commaExprsLeaves more) → Level indent named.length →
      P none ⟨named, false, false⟩ items →
      P none ⟨named, false, false⟩ (commaExprsLayout false indent more ++ items)
  | [], _, _, _, hrest => hrest
  | (comma, e) :: more, h, hg, hlevel, hrest => by
    obtain ⟨-, he, hmore⟩ := h
    simp only [commaExprsLeaves, AllGenuine.cons_iff, AllGenuine.append_iff] at hg
    simp only [commaExprsLayout, List.cons_append, List.append_assoc]
    exact hP.inner (hP.space (Expr.walk hP e he hg.2.1 hlevel onMargin_none
      (commaExprsWalk hP more hmore hg.2.2 hlevel hrest)))

theorem Table.walk {indent : Int} {start : Option Int} {named : List Bool} {items : List Item}
    (hP : Walks version P) :
    ∀ t : Table, t.Fits → AllGenuine version t.leaves → Level indent named.length →
      OnMargin named start → P none ⟨named, false, false⟩ items →
      P start ⟨named, false, false⟩ (t.layout false indent ++ items)
  | .empty opening closing, _, _, _, hline, hrest =>
    hP.opener (by decide) hline (hP.closer (by decide) onMargin_none hrest)
  | .fields opening first more trailing closing, h, hg, hlevel, hline, hrest => by
    obtain ⟨-, -, hfirst, hmore, -, -⟩ := h
    simp only [Table.leaves, AllGenuine.cons_iff, AllGenuine.append_iff] at hg
    obtain ⟨-, hgfirst, hgmore, -, -⟩ := hg
    have hinner : Level (indent + indentStep) (false :: named).length := by simpa using hlevel.inner
    have hbrace : P none ⟨false :: named, false, false⟩
        (closingLine indent :: closing.wordAs "\x7d" :: items) :=
      hP.line hinner rfl (hP.closer (by decide) (onMargin_some hlevel) hrest)
    have hclose : P none ⟨false :: named, false, false⟩ (trailing.toList.map Leaf.omitted ++
        closingLine indent :: closing.wordAs "\x7d" :: items) := by
      cases trailing with
      | none => exact hbrace
      | some separator => exact hP.omitted hbrace
    simp only [Table.layout, List.cons_append, List.append_assoc, List.nil_append]
    exact hP.opener (by decide) hline (hP.newLine hinner (Field.walk hP first hfirst hgfirst hinner
      (fieldsWalk hP more hmore hgmore hinner hclose)))

theorem fieldsWalk {next : Option Token} {indent : Int} {named : List Bool} {items : List Item}
    (hP : Walks version P) :
    ∀ more : List (Leaf × Field), FieldsFit next more →
      AllGenuine version (fieldsLeaves more) → Level indent named.length →
      P none ⟨named, false, false⟩ items →
      P none ⟨named, false, false⟩ (commaFieldsLayout false indent more ++ items)
  | [], _, _, _, hrest => hrest
  | (separator, f) :: more, h, hg, hlevel, hrest => by
    obtain ⟨-, -, hf, hmore⟩ := h
    simp only [fieldsLeaves, AllGenuine.cons_iff, AllGenuine.append_iff] at hg
    simp only [commaFieldsLayout, List.cons_append, List.append_assoc]
    exact hP.inner (hP.newLine hlevel (Field.walk hP f hf hg.2.1 hlevel
      (fieldsWalk hP more hmore hg.2.2 hlevel hrest)))

/-- A field has a line of its own. -/
theorem Field.walk {next : Option Token} {indent : Int} {named : List Bool} {items : List Item}
    (hP : Walks version P) :
    ∀ f : Field, f.Fits next → AllGenuine version f.leaves → Level indent named.length →
      P none ⟨named, false, false⟩ items →
      P (some indent) ⟨named, false, false⟩ (f.layout false indent ++ items)
  | .keyed opening key closing equals value, h, hg, hlevel, hrest => by
    obtain ⟨-, hkey, -, -, hvalue⟩ := h
    simp only [Field.leaves, AllGenuine.cons_iff, AllGenuine.append_iff] at hg
    obtain ⟨-, hgkey, -, -, hgvalue⟩ := hg
    simp only [Field.layout, List.cons_append, List.append_assoc]
    exact hP.quiet (by decide) (onMargin_some hlevel) (hP.spaceIf (Expr.walk hP key hkey hgkey
      hlevel onMargin_none (hP.spaceIf (hP.inner (hP.space (hP.inner (hP.space
        (Expr.walk hP value hvalue hgvalue hlevel onMargin_none hrest))))))))
  | .named name equals value, h, hg, hlevel, hrest => by
    obtain ⟨hname, -, hvalue⟩ := h
    simp only [Field.leaves, AllGenuine.cons_iff] at hg
    obtain ⟨hgname, -, hgvalue⟩ := hg
    exact hP.neutral (hgname.neutral_name hname) (onMargin_some hlevel) (hP.space (hP.inner
      (hP.space (Expr.walk hP value hvalue hgvalue hlevel onMargin_none hrest))))
  | .positional value, h, hg, hlevel, hrest =>
    Expr.walk hP value h.1 hg hlevel (onMargin_some hlevel) hrest

/-- The `end` of a function tells whether it has a name. -/
theorem Body.walk {indent : Int} {named : List Bool} {opened known : Bool} {items : List Item}
    (hP : Walks version P) :
    ∀ b : Body, b.Fits → AllGenuine version b.leaves → Level indent named.length →
      P none ⟨named, false, known⟩ items →
      P none ⟨known :: named, opened, false⟩ (b.layout false indent ++ items)
  | .mk parameters block closing, h, hg, hlevel, hrest => by
    obtain ⟨hparameters, hblock, -⟩ := h
    simp only [Body.leaves, AllGenuine.append_iff] at hg
    simp only [Body.layout, LuaLayout.closeBlock, List.append_assoc, List.cons_append,
      List.nil_append]
    exact Parameters.walk hP hparameters hg.1 (Block.walk hP block hblock hg.2.1
      (by simpa using hlevel.inner) fun _ => hP.closeBlock hlevel hrest)

/-- What comes after a block comes after a declared function or after something else. -/
theorem Block.walk {next : Option Token} {indent : Int} {named : List Bool} {items : List Item}
    (hP : Walks version P) :
    ∀ b : Block, b.Fits next → AllGenuine version b.leaves → Level indent named.length →
      (∀ declared, P none ⟨named, false, declared⟩ items) →
      P none ⟨named, false, false⟩ (b.layout false indent ++ items)
  | .mk statements, h, hg, hlevel, hrest => statementsWalk hP statements h hg hlevel hrest

theorem statementsWalk {next : Option Token} {indent : Int} {named : List Bool} {declared : Bool}
    {items : List Item} (hP : Walks version P) :
    ∀ xs : List Stat, StatementsFit next xs → AllGenuine version (statementsLeaves xs) →
      Level indent named.length → (∀ declared, P none ⟨named, false, declared⟩ items) →
      P none ⟨named, false, declared⟩ (statementsLayout false indent declared xs ++ items)
  | [], _, _, _, hrest => hrest _
  | x :: more, h, hg, hlevel, hrest => by
    obtain ⟨hgx, hgmore⟩ := AllGenuine.append_iff.1 hg
    simp only [statementsLayout, List.cons_append, List.append_assoc]
    refine hP.line hlevel ?_ (Stat.walk hP x h.2.1 hgx hlevel
      (statementsWalk hP more h.2.2 hgmore hlevel hrest))
    rw [Stat.starts h.2.1 hgx h.1, Bool.and_true]

/-- A statement has a line of its own, and tells whether it declares a function. -/
theorem Stat.walk {next : Option Token} {indent : Int} {named : List Bool} {items : List Item}
    (hP : Walks version P) :
    ∀ x : Stat, x.Fits next → AllGenuine version x.leaves → Level indent named.length →
      P none ⟨named, false, x.declaresFunction⟩ items →
      P (some indent) ⟨named, false, false⟩ (x.layout false indent ++ items)
  | .breakLoop word, _, _, hlevel, hrest => hP.quiet (by decide) (onMargin_some hlevel) hrest
  | .goto word target, h, hg, hlevel, hrest => by
    simp only [Stat.leaves, AllGenuine.cons_iff] at hg
    exact hP.quiet (by decide) (onMargin_some hlevel)
      (hP.space (hP.innerNeutral (hg.2.1.neutral_name h.2) hrest))
  | .label opening name closing, h, hg, hlevel, hrest => by
    simp only [Stat.leaves, AllGenuine.cons_iff] at hg
    exact hP.quiet (by decide) (onMargin_some hlevel)
      (hP.innerNeutral (hg.2.1.neutral_name h.2.1) (hP.inner hrest))
  | .empty semicolon, _, _, hlevel, hrest => hP.quiet (by decide) (onMargin_some hlevel) hrest
  | .doBlock word block closing, h, hg, hlevel, hrest => by
    obtain ⟨-, hblock, -⟩ := h
    simp only [Stat.leaves, AllGenuine.cons_iff, AllGenuine.append_iff] at hg
    simp only [Stat.layout, LuaLayout.closeBlock, List.cons_append, List.append_assoc,
      List.nil_append]
    exact hP.opener (by decide) (onMargin_some hlevel) (Block.walk hP block hblock hg.2.1
      (by simpa using hlevel.inner) fun _ => hP.closeBlock hlevel hrest)
  | .whileLoop word condition opening block closing, h, hg, hlevel, hrest => by
    obtain ⟨-, hcondition, -, hblock, -⟩ := h
    simp only [Stat.leaves, AllGenuine.cons_iff, AllGenuine.append_iff] at hg
    obtain ⟨-, hgcondition, -, hgblock, -⟩ := hg
    simp only [Stat.layout, LuaLayout.closeBlock, List.cons_append, List.append_assoc,
      List.nil_append]
    exact hP.quiet (by decide) (onMargin_some hlevel) (hP.space (Expr.walk hP condition hcondition
      hgcondition hlevel onMargin_none (hP.loopBody hlevel
        (fun hinner hafter => Block.walk hP block hblock hgblock hinner hafter) hrest)))
  | .repeatLoop word block closing condition, h, hg, hlevel, hrest => by
    obtain ⟨-, hblock, -, hcondition⟩ := h
    simp only [Stat.leaves, AllGenuine.cons_iff, AllGenuine.append_iff] at hg
    obtain ⟨-, hgblock, -, hgcondition⟩ := hg
    have huntil : ∀ declared, P none ⟨false :: named, false, declared⟩ (closingLine indent ::
        closing.wordAs "until" :: .space :: (condition.layout false indent ++ items)) := fun _ =>
      hP.closingLine hlevel (hP.closer (by decide) (onMargin_some hlevel) (hP.space
        (Expr.walk hP condition hcondition hgcondition hlevel onMargin_none hrest)))
    simp only [Stat.layout, LuaLayout.closeBlock, List.cons_append, List.append_assoc,
      List.nil_append]
    exact hP.opener (by decide) (onMargin_some hlevel) (Block.walk hP block hblock hgblock
      (by simpa using hlevel.inner) huntil)
  | .conditional first more otherwise closing, h, hg, hlevel, hrest => by
    obtain ⟨-, hfirst, hmore, hotherwise, -⟩ := h
    simp only [Stat.leaves, AllGenuine.append_iff] at hg
    obtain ⟨hgfirst, hgmore, hgotherwise, -⟩ := hg
    simp only [Stat.layout, List.append_assoc]
    exact Branch.walk hP first hfirst hgfirst hlevel
      (fun h => hP.quiet (by decide) (onMargin_some hlevel) h)
      fun _ => branchesWalk hP more hmore hgmore hlevel
        fun _ => otherwiseWalk hP otherwise hotherwise hgotherwise hlevel
          fun _ => hP.closeBlock hlevel hrest
  | .countingLoop word name equals start comma stop step opening block closing, h, hg, hlevel,
      hrest => by
    obtain ⟨-, hname, -, hstart, -, hstop, hstep, -, hblock, -⟩ := h
    simp only [Stat.leaves, AllGenuine.cons_iff, AllGenuine.append_iff] at hg
    obtain ⟨-, hgname, -, hgstart, -, hgstop, hgstep, -, hgblock, -⟩ := hg
    have hdo : P none ⟨named, false, false⟩ (.space :: opening.wordAs "do" ::
        (block.layout false (indent + indentStep) ++
          closingLine indent :: closing.wordAs "end" :: items)) :=
      hP.loopBody hlevel (fun hinner hafter => Block.walk hP block hblock hgblock hinner hafter) hrest
    simp only [Stat.layout, LuaLayout.closeBlock, List.cons_append, List.append_assoc,
      List.nil_append]
    exact hP.quiet (by decide) (onMargin_some hlevel) (hP.space
      (hP.innerNeutral (hgname.neutral_name hname) (hP.space (hP.inner (hP.space
        (Expr.walk hP start hstart hgstart hlevel onMargin_none (hP.inner (hP.space
          (Expr.walk hP stop hstop hgstop hlevel onMargin_none
            (stepWalk hP step hstep hgstep hlevel hdo))))))))))
  | .iteration word name more between values opening block closing, h, hg, hlevel, hrest => by
    obtain ⟨-, hname, hnames, -, hvalues, -, hblock, -⟩ := h
    simp only [Stat.leaves, AllGenuine.cons_iff, AllGenuine.append_iff] at hg
    obtain ⟨-, hgname, hgnames, -, hgvalues, -, hgblock, -⟩ := hg
    have hdo : P none ⟨named, false, false⟩ (.space :: opening.wordAs "do" ::
        (block.layout false (indent + indentStep) ++
          closingLine indent :: closing.wordAs "end" :: items)) :=
      hP.loopBody hlevel (fun hinner hafter => Block.walk hP block hblock hgblock hinner hafter) hrest
    simp only [Stat.layout, LuaLayout.closeBlock, List.cons_append, List.append_assoc,
      List.nil_append]
    exact hP.quiet (by decide) (onMargin_some hlevel) (hP.space
      (hP.innerNeutral (hgname.neutral_name hname) (commaNames_walk hP (hnames.neutral hgnames)
        (hP.space (hP.inner (hP.space (Exprs.walk hP values hvalues hgvalues hlevel hdo)))))))
  | .function word name path method body, h, hg, hlevel, hrest => by
    obtain ⟨-, hname, hpath, hmethod, hbody⟩ := h
    simp only [Stat.leaves, ← Leaf.ofPairs_toList, AllGenuine.cons_iff, AllGenuine.append_iff] at hg
    obtain ⟨-, hgname, hgpath, hgmethod, hgbody⟩ := hg
    simp only [Stat.layout, List.cons_append, List.append_assoc]
    exact hP.opener (by decide) (onMargin_some hlevel) (hP.space (hP.name hname hgname
      (path_walk hP (by decide) (hpath.neutral hgpath) (path_walk hP (by decide)
        (hmethod.neutral hgmethod) (Body.walk hP body hbody hgbody hlevel hrest)))))
  | .localFunction word function name body, h, hg, hlevel, hrest => by
    obtain ⟨-, -, hname, hbody⟩ := h
    simp only [Stat.leaves, AllGenuine.cons_iff] at hg
    obtain ⟨-, -, hgname, hgbody⟩ := hg
    exact hP.quiet (by decide) (onMargin_some hlevel) (hP.space (hP.innerOpener (hP.space
      (hP.name hname hgname (Body.walk hP body hbody hgbody hlevel hrest)))))
  | .localNames word first more none, h, hg, hlevel, hrest => by
    obtain ⟨-, -, hfirst, hmore, -⟩ := h
    simp only [Stat.leaves, AllGenuine.cons_iff, AllGenuine.append_iff] at hg
    obtain ⟨-, hgfirst, hgmore⟩ := hg
    simp only [Stat.layout, List.cons_append, List.append_assoc]
    exact hP.quiet (by decide) (onMargin_some hlevel) (hP.space (LocalName.walk hP hfirst hgfirst
      (LocalName.more_walk hP hmore hgmore hrest)))
  | .localNames word first more (some (equals, values)), h, hg, hlevel, hrest => by
    obtain ⟨-, -, hfirst, hmore, -, hvalues⟩ := h
    simp only [Stat.leaves, AllGenuine.cons_iff, AllGenuine.append_iff] at hg
    obtain ⟨-, hgfirst, hgmore, -, hgvalues⟩ := hg
    simp only [Stat.layout, List.cons_append, List.append_assoc]
    exact hP.quiet (by decide) (onMargin_some hlevel) (hP.space (LocalName.walk hP hfirst hgfirst
      (LocalName.more_walk hP hmore hgmore (hP.space (hP.inner (hP.space
        (Exprs.walk hP values hvalues hgvalues hlevel hrest)))))))
  | .result word none, _, _, hlevel, hrest => hP.quiet (by decide) (onMargin_some hlevel) hrest
  | .result word (some values), h, hg, hlevel, hrest =>
    hP.quiet (by decide) (onMargin_some hlevel) (hP.space
      (Exprs.walk hP values h.2.2 (AllGenuine.cons_iff.1 hg).2 hlevel hrest))
  | .assignment first more equals values, h, hg, hlevel, hrest => by
    obtain ⟨-, hfirst, -, hmore, -, hvalues⟩ := h
    simp only [Stat.leaves, AllGenuine.cons_iff, AllGenuine.append_iff] at hg
    obtain ⟨hgfirst, hgmore, -, hgvalues⟩ := hg
    simp only [Stat.layout, List.cons_append, List.append_assoc]
    exact Access.walk hP first hfirst hgfirst hlevel (onMargin_some hlevel)
      (commaAccessesWalk hP more hmore hgmore hlevel (hP.space (hP.inner (hP.space
        (Exprs.walk hP values hvalues hgvalues hlevel hrest)))))
  | .call callee, h, hg, hlevel, hrest =>
    Access.walk hP callee h.2.1 hg hlevel (onMargin_some hlevel) hrest

theorem commaAccessesWalk {next : Option Token} {indent : Int} {named : List Bool}
    {items : List Item} (hP : Walks version P) :
    ∀ more : List (Leaf × Access), CommaAccessesFit next more →
      AllGenuine version (commaAccessesLeaves more) → Level indent named.length →
      P none ⟨named, false, false⟩ items →
      P none ⟨named, false, false⟩ (commaAccessesLayout false indent more ++ items)
  | [], _, _, _, hrest => hrest
  | (comma, a) :: more, h, hg, hlevel, hrest => by
    obtain ⟨-, ha, -, hmore⟩ := h
    simp only [commaAccessesLeaves, AllGenuine.cons_iff, AllGenuine.append_iff] at hg
    simp only [commaAccessesLayout, List.cons_append, List.append_assoc]
    exact hP.inner (hP.space (Access.walk hP a ha hg.2.1 hlevel onMargin_none
      (commaAccessesWalk hP more hmore hg.2.2 hlevel hrest)))

/-- A branch leaves its block open; its first word is placed by the caller. -/
theorem Branch.walk {next : Option Token} {indent : Int} {start : Option Int} {named : List Bool}
    {before : Scope} {text : String} {items : List Item} (hP : Walks version P) :
    ∀ b : Branch, b.Fits next → AllGenuine version b.leaves → Level indent named.length →
      (∀ {remarks : List String} {rest : List Item}, P none ⟨named, false, false⟩ rest →
        P start before (.word text remarks :: rest)) →
      (∀ declared, P none ⟨false :: named, false, declared⟩ items) →
      P start before (b.layout false indent text ++ items)
  | .mk word condition opening block, h, hg, hlevel, hfirst, hrest => by
    obtain ⟨hcondition, -, hblock⟩ := h
    simp only [Branch.leaves, AllGenuine.cons_iff, AllGenuine.append_iff] at hg
    obtain ⟨-, hgcondition, -, hgblock⟩ := hg
    simp only [Branch.layout, List.cons_append, List.append_assoc]
    exact hfirst (hP.space (Expr.walk hP condition hcondition hgcondition hlevel onMargin_none
      (hP.space (hP.innerOpener (Block.walk hP block hblock hgblock (by simpa using hlevel.inner)
        hrest)))))

theorem branchesWalk {next : Option Token} {indent : Int} {named : List Bool} {declared : Bool}
    {items : List Item} (hP : Walks version P) :
    ∀ bs : List Branch, BranchesFit next bs → AllGenuine version (branchesLeaves bs) →
      Level indent named.length → (∀ declared, P none ⟨false :: named, false, declared⟩ items) →
      P none ⟨false :: named, false, declared⟩ (branchesLayout false indent bs ++ items)
  | [], _, _, _, hrest => hrest _
  | .mk word condition opening block :: more, h, hg, hlevel, hrest => by
    obtain ⟨-, hb, hmore⟩ := h
    obtain ⟨hgb, hgmore⟩ := AllGenuine.append_iff.1 hg
    have hword : ∀ {remarks : List String} {rest : List Item}, P none ⟨named, false, false⟩ rest →
        P (some indent) ⟨false :: named, false, false⟩ (.word "elseif" remarks :: rest) :=
      fun h => hP.closer (by decide) (onMargin_some hlevel) h
    have hlater : P (some indent) ⟨false :: named, false, false⟩
        ((Branch.mk word condition opening block).layout false indent "elseif" ++
          (branchesLayout false indent more ++ items)) :=
      Branch.walk hP _ hb hgb hlevel hword fun _ => branchesWalk hP more hmore hgmore hlevel hrest
    simp only [branchesLayout, Branch.layout, List.cons_append, List.append_assoc] at hlater ⊢
    exact hP.closingLine hlevel hlater

theorem otherwiseWalk {next : Option Token} {indent : Int} {named : List Bool} {declared : Bool}
    {items : List Item} (hP : Walks version P) :
    ∀ otherwise : Option (Leaf × Block), OtherwiseFits next otherwise →
      AllGenuine version (otherwiseLeaves otherwise) → Level indent named.length →
      (∀ declared, P none ⟨false :: named, false, declared⟩ items) →
      P none ⟨false :: named, false, declared⟩ (otherwiseLayout false indent otherwise ++ items)
  | none, _, _, _, hrest => hrest _
  | some (word, block), h, hg, hlevel, hrest => by
    have hblock : P none ⟨false :: named, false, false⟩
        (block.layout false (indent + indentStep) ++ items) :=
      Block.walk hP block h.2 (AllGenuine.cons_iff.1 hg).2 (by simpa using hlevel.inner) hrest
    simp only [otherwiseLayout, LuaLayout.closeBlock, List.cons_append, List.nil_append]
    exact hP.closingLine hlevel (hP.otherwise (onMargin_some hlevel) hblock)

theorem stepWalk {next : Option Token} {indent : Int} {named : List Bool} {items : List Item}
    (hP : Walks version P) :
    ∀ step : Option (Leaf × Expr), StepFits next step → AllGenuine version (stepLeaves step) →
      Level indent named.length → P none ⟨named, false, false⟩ items →
      P none ⟨named, false, false⟩ (stepLayout false indent step ++ items)
  | none, _, _, _, hrest => hrest
  | some (comma, step), h, hg, hlevel, hrest => by
    obtain ⟨-, hgstep⟩ := AllGenuine.cons_iff.1 hg
    exact hP.inner (hP.space (Expr.walk hP step h.2 hgstep hlevel onMargin_none hrest))

end

end LuaLayout
