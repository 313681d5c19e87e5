/-
LuaLayout.Proofs.Grammar.Derived — what is derived is a block that fits.

Statements follow one another without separators, so whether one ends is seen
from the token after it: a statement never begins with a comma, an equals sign or
a word that ends a block. A block is therefore read from its last statement
backwards, and what a statement meets is known by the time it is looked at.

With the meanings of all names at hand, whatever the grammar derives from the
tokens of a text are the leaves of a block that fits.
-/
import LuaLayout.Proofs.Grammar.Meanings

namespace LuaLayout

open Grammar (Name Means Holds Takes rules guardedValues sym word)
open Form (inOrder oneOf maybe rule)

variable {version : Version} {values : Form Name} {s m t : List Token} {x : Token}

/-! ## 1. Blocks -/

/-- A word that ends blocks ends the one before it. -/
theorem endsBlock_keyword {text : String} (hx : x.isKeyword text = true)
    (hmem : text ∈ Vocabulary.blockEnds) : (x :: t).head?.all Parser.endsBlock = true := by
  obtain ⟨hkind, rfl⟩ := Token.isKeyword_iff.1 hx
  simp [Parser.endsBlock, hkind, hmem]

/-- What ends a block is no comma and no equals sign. -/
theorem noneOf_of_endsBlock {next : Option Token} (h : next.all Parser.endsBlock = true) :
    NoneOf [",", "="] next := by
  have hwords : ∀ text ∈ Vocabulary.blockEnds, text ∉ [",", "="] := by decide
  intro y hy
  obtain rfl : next = some y := hy
  rw [Option.all_some, Parser.endsBlock, Bool.and_eq_true] at h
  exact hwords _ (List.contains_iff_mem.1 h.2)

/-- Where a statement begins, it is seen from its first token. -/
theorem first_of_stat (h : Derives (rules values) (.rule .stat) s t) :
    ∃ x ∈ s.head?, Grammar.first .stat x = true := by
  rcases (Grammar.begins values).of_derives h with ⟨-, hnever⟩ | hfirst
  · cases hnever
  · exact hfirst

theorem block_means (h : Takes version values (rules values .block) s t) : Means .block s t := by
  intro hnext
  obtain ⟨hrounds, -, -⟩ := h
  obtain ⟨statements, hspans, hfits, -⟩ : ∃ statements, Spans (statementsLeaves statements) s t ∧
      StatementsFit t.head? statements ∧ NoneOf [",", "="] s.head? := by
    induction hrounds using Relation.ReflTransGen.head_induction_on with
    | refl => exact ⟨[], .nil, hnext, noneOf_of_endsBlock hnext⟩
    | @head s m hround _ ih =>
      obtain ⟨hgood, hderives, hstat⟩ := hround
      obtain ⟨statements, hspans, hfits, hnone⟩ := ih
      obtain ⟨x, hx, hxfits⟩ := hstat hnone
      obtain ⟨y, hy, hfirst⟩ := first_of_stat hderives
      obtain ⟨l, rest, hleaves⟩ := x.leaves_eq
      have hfront : s.head? = some l.token := by rw [hx.head?, hleaves, Leaf.front_cons]
      obtain rfl : l.token = y := Option.some.inj (hfront.symm.trans hy)
      refine ⟨x :: statements, hx.append hspans, ⟨?_, ?_, hfits⟩, ?_⟩
      · rw [hleaves, Leaf.front_cons, Option.all_some]
        exact Grammar.not_endsBlock_of_first hfirst
      · rwa [← hspans.head?]
      · intro u hu
        obtain rfl : l.token = u := Option.some.inj (hfront.symm.trans hu)
        exact Grammar.noneOf_of_first hfirst (hgood _ (List.mem_of_mem_head? hfront))
  exact ⟨.mk statements, hspans, hfits⟩

theorem body_means (h : Takes version values (rules values .body) s t) : Means .body s t := by
  obtain ⟨_, ⟨-, -, parameters, hparameters, hpfits⟩, _, ⟨-, -, hblock⟩, _, ⟨x, -, hx, rfl⟩,
    rfl, -⟩ := h
  obtain ⟨b, hb, hbfits⟩ := hblock (endsBlock_keyword hx (by decide))
  exact ⟨.mk parameters b x.leaf, hparameters.append (hb.append Spans.one), hpfits, hbfits,
    (Token.isKeyword_iff.1 hx).2⟩

/-! ## 2. Parts of statements -/

/-- Further conditions, of which the last one meets the end of a block. -/
theorem branches_of_rounds (hnext : t.head?.all Parser.endsBlock = true)
    (h : Relation.ReflTransGen (Takes version values
      (inOrder [word "elseif", rule .exp, word "then", rule .block])) s t) :
    ∃ more, Spans (branchesLeaves more) s t ∧ BranchesFit t.head? more ∧
      s.head?.all Parser.endsBlock = true := by
  induction h using Relation.ReflTransGen.head_induction_on with
  | refl => exact ⟨[], .nil, trivial, hnext⟩
  | head hround _ ih =>
    obtain ⟨_, ⟨x, -, hx, rfl⟩, _, ⟨-, -, condition, hcondition, hcfits⟩, _, ⟨y, -, hy, rfl⟩, _,
      ⟨-, -, hblock⟩, rfl, -⟩ := hround
    obtain ⟨more, hmore, hfits, hends⟩ := ih
    obtain ⟨b, hb, hbfits⟩ := hblock hends
    refine ⟨.mk x.leaf condition y.leaf b :: more, ?_, ⟨?_, ?_, hfits⟩,
      endsBlock_keyword hx (by decide)⟩
    · exact (hcondition.append hb.cons).cons.append hmore
    · intro l hl
      obtain rfl := Option.some.inj hl
      exact (Token.isKeyword_iff.1 hx).2
    · refine ⟨hcfits, (Token.isKeyword_iff.1 hy).2, ?_⟩
      rwa [← hmore.head?]

theorem otherwise_means (hnext : t.head?.all Parser.endsBlock = true)
    (h : Takes version values (maybe 1 (inOrder [word "else", rule .block])) s t) :
    ∃ otherwise, Spans (otherwiseLeaves otherwise) s t ∧ OtherwiseFits t.head? otherwise ∧
      s.head?.all Parser.endsBlock = true := by
  rcases h with h | ⟨rfl, -, -⟩
  · obtain ⟨_, ⟨x, -, hx, rfl⟩, _, ⟨-, -, hblock⟩, rfl, -⟩ := h
    obtain ⟨b, hb, hbfits⟩ := hblock hnext
    exact ⟨some (x.leaf, b), hb.cons, ⟨(Token.isKeyword_iff.1 hx).2, hbfits⟩,
      endsBlock_keyword hx (by decide)⟩
  · exact ⟨none, .nil, trivial, hnext⟩

theorem step_means (h : Takes version values (maybe 1 (inOrder [sym ",", rule .exp])) s t) :
    ∃ step, Spans (stepLeaves step) s t ∧ StepFits t.head? step := by
  rcases h with h | ⟨rfl, -, -⟩
  · obtain ⟨_, ⟨x, -, hx, rfl⟩, _, ⟨-, -, e, he, hfits⟩, rfl, -⟩ := h
    exact ⟨some (x.leaf, e), he.cons, (Token.isOperator_iff.1 hx).2, hfits⟩
  · exact ⟨none, .nil, trivial⟩

theorem method_means (h : Takes version values (maybe 1 (inOrder [sym ":", Grammar.name])) s t) :
    ∃ method, Spans (Leaf.ofPair Leaf.alone method) s t ∧
      Leaf.NamesFit ":" method.toList := by
  rcases h with h | ⟨rfl, -, -⟩
  · obtain ⟨_, ⟨x, -, hx, rfl⟩, _, ⟨y, -, hy, rfl⟩, rfl, -⟩ := h
    refine ⟨some (x.leaf, y.leaf), Spans.one.cons, fun p hp => ?_⟩
    obtain rfl := List.mem_singleton.1 hp
    exact ⟨(Token.isOperator_iff.1 hx).2, eq_of_beq hy⟩
  · exact ⟨none, .nil, by simp [Leaf.NamesFit]⟩

/-- Local names after commas. -/
theorem localNames_of_rounds (hgood : ∀ x ∈ t, x.Genuine version)
    (hend : ¬ Opens (rules values) 1 (inOrder [sym ",", rule .att]) t)
    (h : Relation.ReflTransGen (Takes version values (inOrder [sym ",", rule .att])) s t) :
    ∃ more, Spans (Leaf.ofPairs LocalName.leaves more) s t ∧ LocalName.MoreFit t.head? more := by
  have hround : ∀ s t, Takes version values (inOrder [sym ",", rule .att]) s t →
      ∃ x m n, x.text = "," ∧ s = x :: m ∧ Spans (LocalName.leaves n) m t ∧ n.Fits t.head? := by
    intro s t hround
    obtain ⟨_, ⟨x, -, hx, rfl⟩, _, ⟨-, -, n, hn, hfits⟩, rfl, -⟩ := hround
    exact ⟨x, _, n, (Token.isOperator_iff.1 hx).2, rfl, hn, hfits⟩
  obtain ⟨more, hmore, hpairs⟩ :=
    pairs_of_rounds LocalName.leaves (fun n next => n.Fits next) hround h
  have hnone := noneOf_of_not_opens (sentence_att values).inOrder_last (by decide) hgood hend
  exact ⟨more, hmore, (localNamesFit_iff _ _).2 ⟨hpairs, hnone⟩⟩

/-- Further targets of an assignment. -/
theorem targets_of_rounds
    (h : Relation.ReflTransGen
      (Takes version values (inOrder [sym ",", rule (.access .assignable)])) s t) :
    ∃ more, Spans (commaAccessesLeaves more) s t ∧ CommaAccessesFit t.head? more := by
  have hround : ∀ s t, Takes version values (inOrder [sym ",", rule (.access .assignable)]) s t →
      ∃ x m a, x.text = "," ∧ s = x :: m ∧ Spans (Access.leaves a) m t ∧
        a.Fits t.head? ∧ a.kind = .assignable := by
    intro s t hround
    obtain ⟨_, ⟨x, -, hx, rfl⟩, _, ⟨-, -, a, ha, hfits⟩, rfl, -⟩ := hround
    exact ⟨x, _, a, (Token.isOperator_iff.1 hx).2, rfl, ha, hfits⟩
  obtain ⟨more, hmore, hpairs⟩ := pairs_of_rounds Access.leaves
    (fun a next => a.Fits next ∧ a.kind = .assignable) hround h
  refine ⟨more, ?_, (commaAccessesFit_iff _ _).2 hpairs⟩
  rwa [commaAccessesLeaves_eq]

/-- An access begins with what announces no statement. -/
theorem Access.Fits.head_opensNone {a : Access} {next : Option Token} (h : a.Fits next) :
    a.head.OpensNone := by
  obtain ⟨root, suffixes⟩ := a
  cases root with
  | name l =>
    have hkind : l.token.kind = .name := h.1
    simp [Access.head, Leaf.OpensNone, StatementForm.ofToken?, Parser.binaryPowers?, hkind]
  | group opening inner closing =>
    have hopening : opening.token.isOperator "(" = true := h.1.1
    obtain ⟨hkind, htext⟩ := Token.isOperator_iff.1 hopening
    refine ⟨(Grammar.ofToken?_operator hopening).trans rfl, ?_⟩
    rw [Access.head, Parser.binaryPowers?, hkind, htext]
    rfl

/-! ## 3. Statements -/

/-- The keyword opens the statement that its text announces. -/
theorem opens_keyword {text : String} {form : StatementForm} (hx : x.isKeyword text = true)
    (hform : StatementForm.ofOpening? text = some form) : x.leaf.Opens form :=
  (Grammar.ofToken?_keyword hx).trans hform

theorem conditional_means (h : Takes version values (inOrder [word "if", rule .exp, word "then",
      rule .block, .many 1 (inOrder [word "elseif", rule .exp, word "then", rule .block]),
      maybe 1 (inOrder [word "else", rule .block]), word "end"]) s t) :
    ∃ x : Stat, Spans x.leaves s t ∧ x.Fits t.head? := by
  obtain ⟨_, ⟨x, -, hx, rfl⟩, _, ⟨-, -, condition, hcondition, hcfits⟩, _, ⟨y, -, hy, rfl⟩, _,
    ⟨-, -, hblock⟩, u, ⟨hrounds, -, -⟩, _, hotherwise, _, ⟨z, -, hz, rfl⟩, rfl, -⟩ := h
  obtain ⟨otherwise, hospans, hofits, hoends⟩ :=
    otherwise_means (endsBlock_keyword hz (by decide)) hotherwise
  obtain ⟨more, hmore, hmfits, hmends⟩ := branches_of_rounds hoends hrounds
  obtain ⟨b, hb, hbfits⟩ := hblock hmends
  refine ⟨.conditional (.mk x.leaf condition y.leaf b) more otherwise z.leaf, ?_, ?_, ?_, ?_,
    hofits, (Token.isKeyword_iff.1 hz).2⟩
  · exact (hcondition.append hb.cons).cons.append (hmore.append (hospans.append Spans.one))
  · intro l hl
    obtain rfl := Option.some.inj hl
    exact opens_keyword hx rfl
  · refine ⟨hcfits, (Token.isKeyword_iff.1 hy).2, ?_⟩
    rw [hmore.head?, hospans.head?] at hbfits
    rwa [Leaf.front_append]
  · rwa [hospans.head?] at hmfits

theorem countingLoop_means (h : Takes version values (inOrder [word "for", Grammar.name, sym "=",
      rule .exp, sym ",", rule .exp, maybe 1 (inOrder [sym ",", rule .exp]), word "do",
      rule .block, word "end"]) s t) :
    ∃ x : Stat, Spans x.leaves s t ∧ x.Fits t.head? := by
  obtain ⟨_, ⟨x, -, hx, rfl⟩, _, ⟨y, -, hy, rfl⟩, _, ⟨z, -, hz, rfl⟩, _,
    ⟨-, -, start, hstart, hstartFits⟩, _, ⟨comma, -, hcomma, rfl⟩, u,
    ⟨-, -, stop, hstop, hstopFits⟩, _, hstep, _, ⟨opening, -, hopening, rfl⟩, _,
    ⟨-, -, hblock⟩, _, ⟨closing, -, hclosing, rfl⟩, rfl, -⟩ := h
  obtain ⟨step, hstepSpans, hstepFits⟩ := step_means hstep
  obtain ⟨b, hb, hbfits⟩ := hblock (endsBlock_keyword hclosing (by decide))
  refine ⟨.countingLoop x.leaf y.leaf z.leaf start comma.leaf stop step opening.leaf b closing.leaf,
    ?_, opens_keyword hx rfl, eq_of_beq hy, (Token.isOperator_iff.1 hz).2, hstartFits,
    (Token.isOperator_iff.1 hcomma).2, ?_, hstepFits, (Token.isKeyword_iff.1 hopening).2, hbfits,
    (Token.isKeyword_iff.1 hclosing).2⟩
  · exact (hstart.append (hstop.append (hstepSpans.append
      (hb.append Spans.one).cons)).cons).cons.cons.cons
  · rwa [hstepSpans.head?] at hstopFits

theorem iteration_means (h : Takes version values (inOrder [word "for", Grammar.name,
      .many 1 (inOrder [sym ",", Grammar.name]), word "in", rule .explist, word "do",
      rule .block, word "end"]) s t) :
    ∃ x : Stat, Spans x.leaves s t ∧ x.Fits t.head? := by
  obtain ⟨_, ⟨x, -, hx, rfl⟩, _, ⟨y, -, hy, rfl⟩, _, ⟨hrounds, -, -⟩, _, ⟨z, -, hz, rfl⟩, _,
    ⟨-, -, es, hes, hfits⟩, _, ⟨opening, -, hopening, rfl⟩, _, ⟨-, -, hblock⟩, _,
    ⟨closing, -, hclosing, rfl⟩, rfl, -⟩ := h
  obtain ⟨more, hmore, hnames⟩ := names_of_rounds hrounds
  obtain ⟨b, hb, hbfits⟩ := hblock (endsBlock_keyword hclosing (by decide))
  exact ⟨.iteration x.leaf y.leaf more z.leaf es opening.leaf b closing.leaf,
    (hmore.append (hes.append (hb.append Spans.one).cons).cons).cons.cons, opens_keyword hx rfl,
    eq_of_beq hy, hnames, (Token.isKeyword_iff.1 hz).2, hfits, (Token.isKeyword_iff.1 hopening).2,
    hbfits, (Token.isKeyword_iff.1 hclosing).2⟩

theorem localNames_means (h : Takes version values (inOrder [word "local", rule .att,
      .many 1 (inOrder [sym ",", rule .att]), maybe 1 (inOrder [sym "=", rule .explist])]) s t) :
    ∃ x : Stat, Spans x.leaves s t ∧ x.Fits t.head? := by
  obtain ⟨_, ⟨x, -, hx, rfl⟩, _, ⟨hgood, -, first, hfirst, hffits⟩, u, ⟨hrounds, hend, hugood⟩, _,
    hvalues, rfl, -⟩ := h
  obtain ⟨more, hmore, hmfits⟩ := localNames_of_rounds hugood hend hrounds
  have hword : ¬ first.name.Says "function" := by
    intro hsays
    have hgenuine := hfirst.genuine hgood first.name (by simp [LocalName.leaves])
    have hkind := (Token.isKeyword_iff.1 (hgenuine.isKeyword_of_text (by decide) hsays)).1
    have hname : first.name.token.kind = .name := hffits.1
    rw [hname] at hkind
    cases hkind
  rw [hmore.head?] at hffits
  rcases hvalues with hvalues | ⟨rfl, hno, -⟩
  · obtain ⟨_, ⟨equals, -, hequals, rfl⟩, _, ⟨-, -, es, hes, hfits⟩, rfl, -⟩ := hvalues
    exact ⟨.localNames x.leaf first more (some (equals.leaf, es)),
      (hfirst.append (hmore.append hes.cons)).cons, opens_keyword hx rfl, hword, hffits, hmfits,
      (Token.isOperator_iff.1 hequals).2, hfits⟩
  · exact ⟨.localNames x.leaf first more none, (hfirst.append hmore).cons, opens_keyword hx rfl,
      hword, hffits, hmfits, noneOf_of_not_opens (sentence_explist values).inOrder_last (by decide)
        hugood hno⟩

theorem assignment_means (h : Takes version values (inOrder [rule (.access .assignable),
      .many 1 (inOrder [sym ",", rule (.access .assignable)]), sym "=", rule .explist]) s t) :
    ∃ x : Stat, Spans x.leaves s t ∧ x.Fits t.head? := by
  obtain ⟨_, ⟨-, -, first, hfirst, hffits, hkind⟩, _, ⟨hrounds, -, -⟩, _,
    ⟨equals, -, hequals, rfl⟩, _, ⟨-, -, es, hes, hfits⟩, rfl, -⟩ := h
  obtain ⟨more, hmore, hmfits⟩ := targets_of_rounds hrounds
  have hopens := hffits.head_opensNone
  rw [hmore.head?] at hffits
  exact ⟨.assignment first more equals.leaf es, hfirst.append (hmore.append hes.cons), hopens,
    hffits, hkind, hmfits, (Token.isOperator_iff.1 hequals).2, hfits⟩

/-- A return carries values unless it has to end. -/
theorem result_means
    (h : Takes version guardedValues (inOrder [word "return", guardedValues]) s t) :
    ∃ x : Stat, Spans x.leaves s t ∧ x.Fits t.head? := by
  obtain ⟨_, ⟨x, -, hx, rfl⟩, _, hvalues, rfl, -⟩ := h
  rcases hvalues with ⟨rfl, hends⟩ | ⟨_, ⟨rfl, -⟩, _, ⟨-, -, es, hes, hfits⟩, rfl, -⟩ |
    ⟨_, -, hnever, -⟩
  · exact ⟨.result x.leaf none, .one, opens_keyword hx rfl, hends⟩
  · exact ⟨.result x.leaf (some es), hes.cons, opens_keyword hx rfl, Exprs.front_endsResult hfits,
      hfits⟩
  · cases hnever

theorem stat_means (h : Takes version guardedValues (rules guardedValues .stat) s t) :
    Means .stat s t := by
  intro hnext
  have hends : ∀ {y : Token} {u : List Token}, y.isKeyword "end" = true →
      (y :: u).head?.all Parser.endsBlock = true := fun hy => endsBlock_keyword hy (by decide)
  rcases h with h | h | h | h | h | h | h | h | h | h | h | h | h | h | h | h | ⟨_, -, hnever, -⟩
  · obtain ⟨x, -, hx, rfl⟩ := h
    exact ⟨.empty x.leaf, .one, (Grammar.ofToken?_operator hx).trans rfl⟩
  · obtain ⟨x, -, hx, rfl⟩ := h
    exact ⟨.breakLoop x.leaf, .one, opens_keyword hx rfl⟩
  · obtain ⟨_, ⟨x, -, hx, rfl⟩, _, ⟨y, -, hy, rfl⟩, rfl, -⟩ := h
    exact ⟨.goto x.leaf y.leaf, Spans.one.cons, opens_keyword hx rfl, eq_of_beq hy⟩
  · obtain ⟨_, ⟨x, -, hx, rfl⟩, _, ⟨y, -, hy, rfl⟩, _, ⟨z, -, hz, rfl⟩, rfl, -⟩ := h
    exact ⟨.label x.leaf y.leaf z.leaf, Spans.one.cons.cons,
      (Grammar.ofToken?_operator hx).trans rfl, eq_of_beq hy, (Token.isOperator_iff.1 hz).2⟩
  · obtain ⟨_, ⟨x, -, hx, rfl⟩, _, ⟨-, -, hblock⟩, _, ⟨y, -, hy, rfl⟩, rfl, -⟩ := h
    obtain ⟨b, hb, hbfits⟩ := hblock (hends hy)
    exact ⟨.doBlock x.leaf b y.leaf, (hb.append Spans.one).cons, opens_keyword hx rfl, hbfits,
      (Token.isKeyword_iff.1 hy).2⟩
  · obtain ⟨_, ⟨x, -, hx, rfl⟩, _, ⟨-, -, e, he, hefits⟩, _, ⟨y, -, hy, rfl⟩, _, ⟨-, -, hblock⟩, _,
      ⟨z, -, hz, rfl⟩, rfl, -⟩ := h
    obtain ⟨b, hb, hbfits⟩ := hblock (hends hz)
    exact ⟨.whileLoop x.leaf e y.leaf b z.leaf, (he.append (hb.append Spans.one).cons).cons,
      opens_keyword hx rfl, hefits, (Token.isKeyword_iff.1 hy).2, hbfits,
      (Token.isKeyword_iff.1 hz).2⟩
  · obtain ⟨_, ⟨x, -, hx, rfl⟩, _, ⟨-, -, hblock⟩, _, ⟨y, -, hy, rfl⟩, _, ⟨-, -, e, he, hefits⟩,
      rfl, -⟩ := h
    obtain ⟨b, hb, hbfits⟩ := hblock (endsBlock_keyword hy (by decide))
    exact ⟨.repeatLoop x.leaf b y.leaf e, (hb.append he.cons).cons, opens_keyword hx rfl, hbfits,
      (Token.isKeyword_iff.1 hy).2, hefits⟩
  · exact conditional_means h
  · exact countingLoop_means h
  · exact iteration_means h
  · obtain ⟨_, ⟨x, -, hx, rfl⟩, _, ⟨y, -, hy, rfl⟩, _, ⟨hrounds, -, -⟩, _, hmethod, _,
      ⟨-, -, b, hb, hbfits⟩, rfl, -⟩ := h
    obtain ⟨path, hpath, hpathFits⟩ := names_of_rounds hrounds
    obtain ⟨method, hmethodSpans, hmethodFits⟩ := method_means hmethod
    exact ⟨.function x.leaf y.leaf path method b, (hpath.append (hmethodSpans.append hb)).cons.cons,
      opens_keyword hx rfl, eq_of_beq hy, hpathFits, hmethodFits, hbfits⟩
  · obtain ⟨_, ⟨x, -, hx, rfl⟩, _, ⟨y, -, hy, rfl⟩, _, ⟨z, -, hz, rfl⟩, _, ⟨-, -, b, hb, hbfits⟩,
      rfl, -⟩ := h
    exact ⟨.localFunction x.leaf y.leaf z.leaf b, hb.cons.cons.cons, opens_keyword hx rfl,
      (Token.isKeyword_iff.1 hy).2, eq_of_beq hz, hbfits⟩
  · exact localNames_means h
  · exact result_means h
  · exact assignment_means h
  · obtain ⟨-, -, a, ha, hafits, hkind⟩ := h
    exact ⟨.call a, ha, hafits.head_opensNone, hafits, hkind, hnext⟩
  · cases hnever

/-! ## 4. All names -/

/-- Every name has its meaning where its parts have theirs. -/
theorem means (n : Name) (h : Takes version guardedValues (rules guardedValues n) s t) :
    Means n s t := by
  cases n with
  | block => exact block_means h
  | stat => exact stat_means h
  | att => exact att_means h
  | body => exact body_means h
  | parameters => exact parameters_means h
  | explist => exact explist_means h
  | exp => exact exp_means h
  | operand => exact operand_means h
  | simple => exact simple_means h
  | access kind => exact access_means h
  | suffixes last kind => exact suffixes_means h
  | member => exact member_means h
  | argument => exact argument_means h
  | table => exact table_means h
  | field => exact field_means h

/-- Tokens of the grammar that derive from a block up to their end are the leaves
of a block that fits there. -/
theorem Derives.block (hgood : ∀ x ∈ s, x.Genuine version)
    (h : Derives (rules guardedValues) (.rule .block) s []) :
    ∃ b : Block, b.leaves = s.map Token.leaf ∧ b.Fits none := by
  obtain ⟨-, -, hblock⟩ := Derives.under (fun n _ _ _ htakes => means n htakes) h hgood
  obtain ⟨b, hspans, hfits⟩ := hblock rfl
  have heq : s.map Token.leaf = b.leaves ++ [] := hspans
  exact ⟨b, by rw [heq, List.append_nil], hfits⟩

end LuaLayout
