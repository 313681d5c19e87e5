/-
LuaLayout.Proofs.Grammar.Meanings — the trees that the grammar stands for.

Every name of the grammar means a kind of tree: what it takes are the leaves of
such a tree, and the tree fits before what is left. A repetition gives its list
round by round, and where it stops, nothing that could go on is ahead; for a part
that begins with a symbol this is shown by a sentence of the part.

The grammar lists the operands of an expression and the operators between them
one after the other. Under a limit the operators that exceed it are taken, each
with a right operand read under its own limit; so the list is cut into the tree
of the expression, from the last operator backwards.
-/
import LuaLayout.Proofs.Grammar.Lua
import LuaLayout.Proofs.Layout.RereadParts

namespace LuaLayout

open Grammar (Name rules guardedValues sym word)
open Form (inOrder oneOf rule)

/-! ## 1. Leaves of tokens -/

namespace Token

/-- The token as a leaf without comments. -/
def leaf (t : Token) : Leaf := ⟨t, []⟩

end Token

/-- The tokens begin with those of the leaves, and the others are left. -/
def Spans (leaves : List Leaf) (s t : List Token) : Prop :=
  s.map Token.leaf = leaves ++ t.map Token.leaf

namespace Spans

variable {xs ys : List Leaf} {s m t : List Token} {x : Token}

theorem nil : Spans [] s s := rfl

theorem one : Spans [x.leaf] (x :: t) t := rfl

theorem cons (h : Spans xs s t) : Spans (x.leaf :: xs) (x :: s) t := congrArg (x.leaf :: ·) h

theorem append (h : Spans xs s m) (h' : Spans ys m t) : Spans (xs ++ ys) s t := by
  rw [Spans, h, h', List.append_assoc]

/-- The token ahead is the first of the leaves, or the first that is left. -/
theorem head? (h : Spans xs s t) : s.head? = Leaf.front xs t.head? := by
  have hhead := congrArg List.head? h
  cases xs with
  | nil =>
    cases s <;> cases t <;> simp_all [Token.leaf]
  | cons l xs =>
    cases s with
    | nil => simp at hhead
    | cons y s =>
      simp only [List.map_cons, List.head?_cons, List.cons_append, Option.some.injEq] at hhead
      rw [← hhead]
      rfl

theorem genuine {version : Version} (h : Spans xs s t) (hs : ∀ x ∈ s, x.Genuine version) :
    AllGenuine version xs := by
  intro l hl
  have hmem : l ∈ s.map Token.leaf := by
    rw [h]
    exact List.mem_append_left _ hl
  obtain ⟨x, hx, rfl⟩ := List.mem_map.1 hmem
  exact hs x hx

end Spans

/-! ## 2. Meanings -/

namespace Grammar

/-- What a name stands for: a tree of its kind, whose leaves are taken and which
fits before what is left. A statement or a field need not fit before a token that
only another one of its kind would go on with; nor a block before another
statement. -/
def Means : Name → List Token → List Token → Prop
  | .block, s, t => t.head?.all Parser.endsBlock = true →
      ∃ b : Block, Spans b.leaves s t ∧ b.Fits t.head?
  | .stat, s, t => NoneOf [",", "="] t.head? →
      ∃ x : Stat, Spans x.leaves s t ∧ x.Fits t.head?
  | .att, s, t => ∃ n : LocalName, Spans n.leaves s t ∧ n.Fits t.head?
  | .body, s, t => ∃ b : Body, Spans b.leaves s t ∧ b.Fits
  | .parameters, s, t => ∃ p : Parameters, Spans p.leaves s t ∧ p.Fits
  | .explist, s, t => ∃ es : Exprs, Spans es.leaves s t ∧ es.Fits t.head?
  | .exp, s, t => ∃ e : Expr, Spans e.leaves s t ∧ e.Fits 0 t.head?
  | .operand, s, t => ∃ (signs : List Leaf) (o : Operand), Spans (signs ++ o.leaves) s t ∧
      (∀ u ∈ signs, Parser.isUnary u.token = true) ∧ o.Fits t.head?
  | .simple, s, t => ∃ o : Operand, Spans o.leaves s t ∧ o.Fits t.head?
  | .access kind, s, t => ∃ a : Access, Spans a.leaves s t ∧ a.Fits t.head? ∧ a.kind = kind
  | .suffixes last kind, s, t => ∃ xs : List Suffix, Spans (suffixesLeaves xs) s t ∧
      SuffixesFit t.head? xs ∧ (xs.getLast?.map Suffix.kind).getD last = kind
  | .member, s, t => ∃ x : Suffix, Spans x.leaves s t ∧ x.Fits ∧ x.kind = .assignable
  | .argument, s, t => ∃ x : Suffix, Spans x.leaves s t ∧ x.Fits ∧ x.kind = .call
  | .table, s, t => ∃ fields : Table, Spans fields.leaves s t ∧ fields.head.IsSymbol "\x7b" ∧
      fields.Fits
  | .field, s, t => NoneOf ["="] t.head? → ∃ f : Field, Spans f.leaves s t ∧ f.Fits t.head?

/-- A name takes tokens of the grammar with its meaning. -/
def Holds (version : Version) (values : Form Name) (n : Name) (s t : List Token) : Prop :=
  (∀ x ∈ s, x.Genuine version) ∧ Derives (rules values) (.rule n) s t ∧ Means n s t

/-- The form takes tokens, its names with their meanings. -/
def Takes (version : Version) (values : Form Name) (f : Form Name) (s t : List Token) : Prop :=
  f.Under (rules values) (Token.Genuine version) (Holds version values) s t

end Grammar

open Grammar (Means Holds Takes)

variable {version : Version} {values : Form Name} {s m t : List Token} {next : Option Token}

/-! ## 3. Where a repetition stops -/

/-- Some name. -/
def someName : Token := ⟨.name, "x", Position.start⟩

theorem sentence_suffixes (values : Form Name) (kind : AccessKind) :
    Sentence (rules values) (.rule (.suffixes kind kind)) [] := by
  refine .rule ?_
  simp only [rules, if_true]
  exact .right (.right (.left .absent))

/-- A name is an access, and so an operand. -/
theorem sentence_operand (values : Form Name) :
    Sentence (rules values) (.rule .operand) [someName] := by
  have haccess : Sentence (rules values) (.rule (.access .assignable)) ([someName] ++ ([] ++ [])) :=
    .rule (.left (.seq (.token rfl) (.seq (sentence_suffixes values _) .ahead)))
  have hsimple : Sentence (rules values) (.rule .simple) [someName] :=
    .rule (.right (.right (.right (.right (.left haccess)))))
  have hoperand : Sentence (rules values) (.rule .operand) ([] ++ ([someName] ++ [])) :=
    .rule (.seq .done (.seq hsimple .ahead))
  exact hoperand

theorem sentence_exp (values : Form Name) : Sentence (rules values) (.rule .exp) [someName] := by
  have hexp : Sentence (rules values) (.rule .exp) ([someName] ++ ([] ++ [])) :=
    .rule (.seq (sentence_operand values) (.seq .done .ahead))
  exact hexp

theorem sentence_explist (values : Form Name) :
    Sentence (rules values) (.rule .explist) [someName] := by
  have hlist : Sentence (rules values) (.rule .explist) ([someName] ++ ([] ++ [])) :=
    .rule (.seq (sentence_exp values) (.seq .done .ahead))
  exact hlist

theorem sentence_att (values : Form Name) : Sentence (rules values) (.rule .att) [someName] := by
  have hatt : Sentence (rules values) (.rule .att) ([someName] ++ ([] ++ [])) :=
    .rule (.seq (.token rfl) (.seq (.right .absent) .ahead))
  exact hatt

/-- One part alone. -/
theorem Sentence.inOrder_last {N : Type} {g : N → Form N} {f : Form N} {w : List Token}
    (h : Sentence g f w) : Sentence g (inOrder [f]) w := by
  have hseq : Sentence g (inOrder [f]) (w ++ []) := .seq h .ahead
  rwa [List.append_nil] at hseq

/-- A part that begins with a symbol opens wherever the symbol is ahead. -/
theorem opens_sym {text : String} {rest : List (Form Name)} {w : List Token} {x : Token}
    (hw : Sentence (rules values) (inOrder rest) w) (hx : x.isOperator text = true) :
    Opens (rules values) 1 (inOrder (sym text :: rest)) (x :: t) :=
  ⟨[x] ++ w, .seq (.token hx) hw, ⟨t, rfl⟩⟩

/-- Where such a part is left out, the symbol is not ahead. -/
theorem noneOf_of_not_opens {text : String} {rest : List (Form Name)} {w : List Token}
    (hw : Sentence (rules values) (inOrder rest) w) (hmem : text ∈ Vocabulary.baseOperators)
    (hgood : ∀ x ∈ t, x.Genuine version)
    (h : ¬ Opens (rules values) 1 (inOrder (sym text :: rest)) t) : NoneOf [text] t.head? := by
  refine noneOf_singleton.2 fun x hx htext => h ?_
  cases t with
  | nil => cases hx
  | cons y t =>
    obtain rfl : y = x := Option.some.inj hx
    exact opens_sym hw ((hgood y (by simp)).isOperator_of_text hmem htext)

/-- Rounds of a separator and an item give pairs. -/
theorem pairs_of_rounds {α : Type} {separator : String} (leaves : α → List Leaf)
    (fits : α → Option Token → Prop) {round : List Token → List Token → Prop}
    (hround : ∀ s t, round s t → ∃ x m a, x.text = separator ∧ s = x :: m ∧
      Spans (leaves a) m t ∧ fits a t.head?)
    (h : Relation.ReflTransGen round s t) :
    ∃ more : List (Leaf × α), Spans (Leaf.ofPairs leaves more) s t ∧
      Parser.PairsFit separator leaves fits t.head? more := by
  induction h using Relation.ReflTransGen.head_induction_on with
  | refl => exact ⟨[], .nil, trivial⟩
  | head hr _ ih =>
    obtain ⟨x, m, a, htext, rfl, hspans, hfits⟩ := hround _ _ hr
    obtain ⟨more, hmore, hpairs⟩ := ih
    refine ⟨(x.leaf, a) :: more, (hspans.append hmore).cons, htext, ?_, hpairs⟩
    rwa [← hmore.head?]

/-! ## 4. Names and parameters -/

theorem att_means (h : Takes version values (rules values .att) s t) : Means .att s t := by
  obtain ⟨_, ⟨x, -, hx, rfl⟩, _, hmark, rfl, -⟩ := h
  rcases hmark with hmark | ⟨rfl, hend, hgood⟩
  · obtain ⟨_, ⟨y, -, hy, rfl⟩, _, ⟨z, -, hz, rfl⟩, _, ⟨u, -, hu, rfl⟩, rfl, -⟩ := hmark
    exact ⟨⟨x.leaf, some ⟨y.leaf, z.leaf, u.leaf⟩⟩, Spans.one.cons.cons.cons,
      eq_of_beq hx, (Token.isOperator_iff.1 hy).2, eq_of_beq hz, (Token.isOperator_iff.1 hu).2⟩
  · have hw : Sentence (rules values) (inOrder [Grammar.name, sym ">"])
        ([someName] ++ ([⟨.operator, ">", Position.start⟩] ++ [])) :=
      .seq (.token rfl) (.seq (.token rfl) .ahead)
    exact ⟨⟨x.leaf, none⟩, .one, eq_of_beq hx,
      noneOf_of_not_opens hw (by decide) hgood hend⟩

/-- Names after a separator. -/
theorem names_of_rounds {separator : String}
    (h : Relation.ReflTransGen (Takes version values (inOrder [sym separator, Grammar.name])) s t) :
    ∃ more, Spans (Leaf.ofPairs Leaf.alone more) s t ∧ Leaf.NamesFit separator more := by
  have hround : ∀ s t, Takes version values (inOrder [sym separator, Grammar.name]) s t →
      ∃ x m l, x.text = separator ∧ s = x :: m ∧ Spans (Leaf.alone l) m t ∧ l.IsName := by
    rintro s t ⟨_, ⟨x, -, hx, rfl⟩, _, ⟨y, -, hy, rfl⟩, rfl, -⟩
    exact ⟨x, _, y.leaf, (Token.isOperator_iff.1 hx).2, rfl, .one, eq_of_beq hy⟩
  obtain ⟨more, hspans, hpairs⟩ := pairs_of_rounds Leaf.alone (fun l _ => l.IsName) hround h
  exact ⟨more, hspans, (namesFit_iff _ _ _).2 hpairs⟩

theorem ofPairs_append {α : Type} (leaves : α → List Leaf) (xs ys : List (Leaf × α)) :
    Leaf.ofPairs leaves (xs ++ ys) = Leaf.ofPairs leaves xs ++ Leaf.ofPairs leaves ys := by
  induction xs with
  | nil => rfl
  | cons p rest ih => simp [Leaf.ofPairs, ih]

theorem moreFit_append {names : List (Leaf × Leaf)} {last : Option (Leaf × Leaf)}
    (hnames : Leaf.NamesFit "," names)
    (hlast : ∀ p ∈ last, p.1.Says "," ∧ Parser.isEllipsis p.2.token = true) :
    Parameters.MoreFit (names ++ last.toList) := by
  induction names with
  | nil =>
    cases last with
    | none => trivial
    | some p => exact ⟨(hlast p rfl).1, .inr (hlast p rfl).2⟩
  | cons p rest ih =>
    obtain ⟨⟨hcomma, hname⟩, hrest⟩ := List.forall_mem_cons.1 hnames
    exact Parser.moreFit_cons hcomma hname (ih hrest)

/-- A word of the grammar is not spelled like a symbol. -/
theorem ne_symbol {x : Token} {text : String} (hgood : x.Genuine version)
    (hkind : x.kind ≠ .operator) (hmem : text ∈ Vocabulary.baseOperators) : x.text ≠ text :=
  fun htext => hkind (Token.isOperator_iff.1 (hgood.isOperator_of_text hmem htext)).1

theorem parameters_means (h : Takes version values (rules values .parameters) s t) :
    Means .parameters s t := by
  obtain ⟨_, ⟨x, -, hx, rfl⟩, _, hlist, rest, ⟨y, -, hy, rfl⟩, rfl, -⟩ := h
  have hopening : x.text = "(" := (Token.isOperator_iff.1 hx).2
  have hclosing : y.text = ")" := (Token.isOperator_iff.1 hy).2
  have hopen : ∀ z : Token, z.Genuine version → z.kind ≠ .operator → z.text ≠ ")" :=
    fun z hz hkind => ne_symbol hz hkind (by decide)
  rcases hlist with (hnames | ⟨z, hz, hdots, rfl⟩ | ⟨_, -, hnever, -⟩) | ⟨rfl, -, -⟩
  · obtain ⟨_, ⟨z, hz, hname, rfl⟩, m, ⟨hrounds, -, -⟩, _, hlast, rfl, -⟩ := hnames
    obtain ⟨names, hspans, hfit⟩ := names_of_rounds hrounds
    have hkind : z.kind = .name := eq_of_beq hname
    obtain ⟨last, hlastSpans, hlastFit⟩ : ∃ last : Option (Leaf × Leaf),
        Spans (Leaf.ofPairs Leaf.alone last.toList) m (y :: rest) ∧
          ∀ p ∈ last, p.1.Says "," ∧ Parser.isEllipsis p.2.token = true := by
      rcases hlast with hlast | ⟨rfl, -, -⟩
      · obtain ⟨_, ⟨u, -, hu, rfl⟩, _, ⟨v, -, hv, rfl⟩, rfl, -⟩ := hlast
        exact ⟨some (u.leaf, v.leaf), Spans.one.cons, fun p hp => by
          obtain rfl := Option.some.inj hp
          exact ⟨(Token.isOperator_iff.1 hu).2, hv⟩⟩
      · exact ⟨none, .nil, by simp⟩
    refine ⟨.some x.leaf z.leaf (names ++ last.toList) y.leaf, ?_, hopening,
      hopen z hz (by rw [hkind]; decide), hclosing, .inr ⟨hkind, moreFit_append hfit hlastFit⟩⟩
    rw [Parameters.leaves, ofPairs_append, List.cons_append, List.cons_append]
    exact ((hspans.append hlastSpans).append Spans.one).cons.cons
  · have hkind : z.kind = .constant := by
      simp only [Bool.and_eq_true, beq_iff_eq] at hdots
      exact hdots.1
    exact ⟨.some x.leaf z.leaf [] y.leaf, Spans.one.cons.cons, hopening,
      hopen z hz (by rw [hkind]; decide), hclosing, .inl ⟨hdots, rfl⟩⟩
  · cases hnever
  · exact ⟨.none x.leaf y.leaf, Spans.one.cons, hopening, hclosing⟩

/-! ## 5. Expressions -/

/-- An operand with the signs before it, after a binary operator. -/
structure Step where
  operator : Leaf
  signs : List Leaf
  operand : Operand

/-- The leaves of operators and operands in order. -/
def stepsLeaves : List Step → List Leaf
  | [] => []
  | x :: rest => x.operator :: (x.signs ++ x.operand.leaves ++ stepsLeaves rest)

/-- Operands that fit where they stand, each after a binary operator. -/
def StepsFit (next : Option Token) : List Step → Prop
  | [] => True
  | x :: rest => (Parser.binaryPowers? x.operator.token).isSome = true ∧
    (∀ u ∈ x.signs, Parser.isUnary u.token = true) ∧
    x.operand.Fits (Leaf.front (stepsLeaves rest) next) ∧ StepsFit next rest

theorem stepsLeaves_append (xs ys : List Step) :
    stepsLeaves (xs ++ ys) = stepsLeaves xs ++ stepsLeaves ys := by
  induction xs with
  | nil => rfl
  | cons x rest ih => simp [stepsLeaves, ih]

theorem StepsFit.right {xs ys : List Step} (h : StepsFit next (xs ++ ys)) : StepsFit next ys := by
  induction xs with
  | nil => exact h
  | cons x rest ih => exact ih h.2.2.2

/-- The operators that exceed a limit, each with its right operand. -/
def Climbs (next : Option Token) (limit : Int) (steps : List Step) : Prop :=
  ∃ operations taken left, steps = taken ++ left ∧
    operationsLeaves operations = stepsLeaves taken ∧
    OperationsFit limit (Leaf.front (stepsLeaves left) next) operations

/-- An operand and the operators after it that exceed the limit. -/
theorem Climbs.expr {limit : Int} {o : Operand} {steps : List Step} (h : Climbs next limit steps)
    (ho : o.Fits (Leaf.front (stepsLeaves steps) next)) :
    ∃ (e : Expr) (taken left : List Step), steps = taken ++ left ∧
      e.leaves = o.leaves ++ stepsLeaves taken ∧
      e.Fits limit (Leaf.front (stepsLeaves left) next) := by
  obtain ⟨operations, taken, left, rfl, hoperations, hlimit⟩ := h
  refine ⟨.mk o operations, taken, left, rfl, by rw [Expr.leaves, hoperations], ?_, hlimit⟩
  rwa [hoperations, ← Leaf.front_append, ← stepsLeaves_append]

/-- The same for an operand with signs: each of them takes an expression under
its own limit. -/
theorem climb_signs (limit : Int) {o : Operand} {signs : List Leaf} {steps : List Step}
    (hclimbs : ∀ limit more, more.length ≤ steps.length → StepsFit next more →
      Climbs next limit more)
    (hsigns : ∀ u ∈ signs, Parser.isUnary u.token = true)
    (ho : o.Fits (Leaf.front (stepsLeaves steps) next)) (hsteps : StepsFit next steps) :
    ∃ (e : Expr) (taken left : List Step), steps = taken ++ left ∧
      e.leaves = signs ++ o.leaves ++ stepsLeaves taken ∧
      e.Fits limit (Leaf.front (stepsLeaves left) next) := by
  induction signs generalizing limit with
  | nil => exact (hclimbs limit steps (Nat.le_refl _) hsteps).expr ho
  | cons u signs ih =>
    obtain ⟨hu, hrest⟩ := List.forall_mem_cons.1 hsigns
    obtain ⟨argument, taken, left, rfl, hleaves, hfits⟩ := ih Powers.unary hrest
    have hunary : (Operand.unary u argument).Fits (Leaf.front (stepsLeaves left) next) :=
      ⟨hu, hfits⟩
    have hlen : left.length ≤ (taken ++ left).length := by simp
    obtain ⟨e, more, left', rfl, he, hlimit⟩ := (hclimbs limit left hlen hsteps.right).expr hunary
    refine ⟨e, taken ++ more, left', by simp, ?_, hlimit⟩
    rw [he, Operand.leaves, hleaves, stepsLeaves_append]
    simp

/-- Steps can be climbed under every limit. -/
theorem climbs (hnext : ∀ u ∈ next, Parser.binaryPowers? u = none) (n : Nat) (limit : Int)
    (steps : List Step) (hlen : steps.length ≤ n) (hsteps : StepsFit next steps) :
    Climbs next limit steps := by
  induction n generalizing limit steps with
  | zero =>
    obtain rfl := List.eq_nil_of_length_eq_zero (Nat.le_zero.1 hlen)
    exact ⟨[], [], [], rfl, rfl, endsExpr_of_none hnext⟩
  | succ n ih =>
    cases steps with
    | nil => exact ⟨[], [], [], rfl, rfl, endsExpr_of_none hnext⟩
    | cons x rest =>
      obtain ⟨hbinary, hsigns, hoperand, hrest⟩ := hsteps
      obtain ⟨powers, hpowers⟩ := Option.isSome_iff_exists.1 hbinary
      simp only [List.length_cons, Nat.add_le_add_iff_right] at hlen
      by_cases hpast : limit < powers.left
      · obtain ⟨right, taken, left, rfl, hright, hfits⟩ := climb_signs powers.right
          (fun limit more hmore => ih limit more (Nat.le_trans hmore hlen)) hsigns hoperand hrest
        have hlen' : left.length ≤ n := by
          simp only [List.length_append] at hlen
          omega
        obtain ⟨operations, more, left', rfl, hoperations, hlimit⟩ :=
          ih limit left hlen' hrest.right
        refine ⟨(x.operator, right) :: operations, x :: taken ++ more, left', by simp, ?_, ?_,
          hlimit⟩
        · rw [operationsLeaves, hright, hoperations, List.cons_append, stepsLeaves,
            stepsLeaves_append]
          simp
        · refine ⟨powers, continuing?_eq_some_iff.2 ⟨hpowers, hpast⟩, ?_⟩
          rwa [hoperations, ← Leaf.front_append, ← stepsLeaves_append]
      · refine ⟨[], [], x :: rest, rfl, rfl, endsExpr_of_le fun u hu q hq => ?_⟩
        obtain rfl := Option.some.inj hu
        rw [hpowers] at hq
        obtain rfl := Option.some.inj hq
        omega

theorem operand_means (h : Takes version values (rules values .operand) s t) :
    Means .operand s t := by
  obtain ⟨m, ⟨hrounds, -, -⟩, _, ⟨-, -, o, hspans, hfits⟩, rfl, -⟩ := h
  obtain ⟨signs, hsigns, hunary⟩ : ∃ signs : List Leaf, Spans signs s m ∧
      ∀ u ∈ signs, Parser.isUnary u.token = true := by
    induction hrounds using Relation.ReflTransGen.head_induction_on with
    | refl => exact ⟨[], .nil, by simp⟩
    | head hround _ ih =>
      obtain ⟨x, -, hx, rfl⟩ := hround
      obtain ⟨signs, hsigns, hunary⟩ := ih
      exact ⟨x.leaf :: signs, hsigns.cons, List.forall_mem_cons.2 ⟨hx, hunary⟩⟩
  exact ⟨signs, o, hsigns.append hspans, hunary, hfits⟩

/-- The binary operators are those that have powers. -/
theorem binop_eq (x : Token) : (x.kind == .operator && Grammar.binaryOperators.contains x.text) =
    (Parser.binaryPowers? x).isSome := by
  have htable : Powers.table.map Prod.fst = Grammar.binaryOperators := by decide
  rw [Parser.binaryPowers?]
  cases x.kind == .operator with
  | false => rfl
  | true =>
    rw [if_pos rfl, Powers.ofBinary?, Bool.true_and, ← htable, Bool.eq_iff_iff,
      List.contains_iff_mem, List.lookup_isSome_iff]
    simp [List.mem_map]

/-- No operator is looser than the limit of a whole expression. -/
theorem binaryPowers?_of_endsExpr (h : EndsExpr 0 next) :
    ∀ u ∈ next, Parser.binaryPowers? u = none := by
  have hpositive : ∀ p ∈ Powers.table, 0 < p.2.left := by decide
  intro u hu
  cases hpowers : Parser.binaryPowers? u with
  | none => rfl
  | some powers =>
    have hpast := hpositive _ (mem_table_of_binaryPowers? hpowers).1
    have hcontinuing := continuing?_eq_some_iff.2 ⟨hpowers, hpast⟩
    cases next with
    | none => cases hu
    | some v =>
      obtain rfl := Option.some.inj hu
      rw [EndsExpr, Option.bind_some, hcontinuing] at h
      cases h

theorem exp_means (h : Takes version values (rules values .exp) s t) : Means .exp s t := by
  obtain ⟨m, ⟨-, -, signs, o, hspans, hsigns, hfits⟩, rest, ⟨hrounds, hend, -⟩, rfl, -⟩ := h
  obtain ⟨steps, hstepsSpans, hsteps⟩ : ∃ steps, Spans (stepsLeaves steps) m rest ∧
      StepsFit rest.head? steps := by
    clear hfits hspans
    induction hrounds using Relation.ReflTransGen.head_induction_on with
    | refl => exact ⟨[], .nil, trivial⟩
    | head hround _ ih =>
      obtain ⟨_, ⟨x, -, hx, rfl⟩, _, ⟨-, -, signs', o', hspans', hsigns', hfits'⟩, rfl, -⟩ :=
        hround
      obtain ⟨steps, hstepsSpans, hsteps⟩ := ih
      refine ⟨⟨x.leaf, signs', o'⟩ :: steps, (hspans'.append hstepsSpans).cons, ?_, hsigns', ?_,
        hsteps⟩
      · exact (binop_eq x).symm.trans hx
      · rwa [← hstepsSpans.head?]
  have hnext : ∀ u ∈ rest.head?, Parser.binaryPowers? u = none := by
    intro u hu
    cases rest with
    | nil => cases hu
    | cons x rest =>
      obtain rfl := Option.some.inj hu
      cases hpowers : Parser.binaryPowers? x with
      | none => rfl
      | some powers =>
        have hbinop : (x.kind == .operator && Grammar.binaryOperators.contains x.text) = true := by
          rw [binop_eq, hpowers]
          rfl
        exact absurd ⟨[x] ++ [someName],
          .seq (.token hbinop) (sentence_operand values).inOrder_last, rest, rfl⟩ hend
  rw [hstepsSpans.head?] at hfits
  obtain ⟨e, taken, left, rfl, hleaves, hlimit⟩ := climb_signs 0
    (fun limit more _ => climbs hnext more.length limit more (Nat.le_refl _)) hsigns hfits hsteps
  cases left with
  | nil =>
    refine ⟨e, ?_, hlimit⟩
    rw [hleaves]
    rw [List.append_nil] at hstepsSpans
    exact hspans.append hstepsSpans
  | cons x left =>
    -- Every operator exceeds the limit, so none of them is left.
    obtain ⟨operand, operations⟩ := e
    have hnone := binaryPowers?_of_endsExpr (operationsFit_iff.1 hlimit.2).2 _ rfl
    have hsome := hsteps.right.1
    rw [hnone] at hsome
    cases hsome

theorem explist_means (h : Takes version values (rules values .explist) s t) :
    Means .explist s t := by
  obtain ⟨m, ⟨-, -, first, hspans, hfits⟩, rest, ⟨hrounds, hend, hgood⟩, rfl, -⟩ := h
  have hround : ∀ s t, Takes version values (inOrder [sym ",", rule .exp]) s t →
      ∃ x m e, x.text = "," ∧ s = x :: m ∧ Spans (Expr.leaves e) m t ∧ e.Fits 0 t.head? := by
    rintro s t ⟨_, ⟨x, -, hx, rfl⟩, _, ⟨-, -, e, he, hefits⟩, rfl, -⟩
    exact ⟨x, _, e, (Token.isOperator_iff.1 hx).2, rfl, he, hefits⟩
  obtain ⟨more, hmore, hpairs⟩ := pairs_of_rounds Expr.leaves (fun e => e.Fits 0) hround hrounds
  have hnone := noneOf_of_not_opens (sentence_exp values).inOrder_last (by decide) hgood hend
  refine ⟨.mk first more, ?_, ?_, (commaExprsFit_iff _ _).2 ⟨hpairs, hnone⟩⟩
  · rw [Exprs.leaves, commaExprsLeaves_eq]
    exact hspans.append hmore
  · rwa [commaExprsLeaves_eq, ← hmore.head?]

/-! ## 6. Accesses -/

theorem member_means (h : Takes version values (rules values .member) s t) : Means .member s t := by
  rcases h with h | h | h | ⟨_, -, hnever, -⟩
  · obtain ⟨_, ⟨x, -, hx, rfl⟩, _, ⟨y, -, hy, rfl⟩, rfl, -⟩ := h
    exact ⟨.member x.leaf y.leaf, Spans.one.cons, ⟨.inl hx, eq_of_beq hy⟩, rfl⟩
  · obtain ⟨_, ⟨x, -, hx, rfl⟩, _, ⟨y, -, hy, rfl⟩, rfl, -⟩ := h
    exact ⟨.member x.leaf y.leaf, Spans.one.cons, ⟨.inr hx, eq_of_beq hy⟩, rfl⟩
  · obtain ⟨_, ⟨x, -, hx, rfl⟩, _, ⟨-, -, e, he, hfits⟩, _, ⟨y, -, hy, rfl⟩, rfl, -⟩ := h
    exact ⟨.index x.leaf e y.leaf, (he.append Spans.one).cons,
      ⟨hx, hfits, (Token.isOperator_iff.1 hy).2⟩, rfl⟩
  · cases hnever

theorem argument_means (h : Takes version values (rules values .argument) s t) :
    Means .argument s t := by
  rcases h with h | h | h | ⟨_, -, hnever, -⟩
  · obtain ⟨_, ⟨x, -, hx, rfl⟩, _, hlist, _, ⟨y, -, hy, rfl⟩, rfl, -⟩ := h
    have hclosing : y.text = ")" := (Token.isOperator_iff.1 hy).2
    rcases hlist with ⟨hgood, -, es, hes, hfits⟩ | ⟨rfl, -, -⟩
    · exact ⟨.call x.leaf (some es) y.leaf, (hes.append Spans.one).cons,
        ⟨hx, Exprs.front_noneOf hfits (hes.genuine hgood), hfits, hclosing⟩, rfl⟩
    · exact ⟨.call x.leaf none y.leaf, Spans.one.cons, ⟨hx, hclosing⟩, rfl⟩
  · obtain ⟨-, -, fields, hspans, hopening, hfits⟩ := h
    exact ⟨.table fields, hspans, ⟨hopening, hfits⟩, rfl⟩
  · obtain ⟨x, -, hx, rfl⟩ := h
    exact ⟨.text x.leaf, .one, eq_of_beq hx, rfl⟩
  · cases hnever

/-- Whatever goes on with an access begins a suffix. -/
theorem opens_suffix {x : Token} (hx : x.startsSuffix = true) :
    Opens (rules values) 1 (oneOf [rule .member, rule .argument]) (x :: t) := by
  have hmember : ∀ {w}, Sentence (rules values) (rules values .member) (x :: w) →
      Opens (rules values) 1 (oneOf [rule .member, rule .argument]) (x :: t) :=
    fun hw => ⟨_, .left (.rule hw), ⟨t, rfl⟩⟩
  have hargument : ∀ {w}, Sentence (rules values) (rules values .argument) (x :: w) →
      Opens (rules values) 1 (oneOf [rule .member, rule .argument]) (x :: t) :=
    fun hw => ⟨_, .right (.left (.rule hw)), ⟨t, rfl⟩⟩
  have hname : ∀ {f : Form Name} {w : List Token}, Sentence (rules values) f w →
      Sentence (rules values) (inOrder [f]) w := fun h => h.inOrder_last
  simp only [Token.startsSuffix, Bool.or_eq_true, beq_iff_eq] at hx
  rcases hx with ((((hx | hx) | hx) | hx) | hx) | hx
  · exact hargument (.right (.right (.left (.token (beq_iff_eq.2 hx)))))
  · exact hmember (w := [someName]) (.left (.seq (.token hx) (hname (.token rfl))))
  · exact hmember (w := [someName]) (.right (.left (.seq (.token hx) (hname (.token rfl)))))
  · have hclosing : Sentence (rules values) (inOrder [rule .exp, sym "]"])
        ([someName] ++ [⟨.operator, "]", Position.start⟩]) :=
      .seq (sentence_exp values) (hname (.token rfl))
    exact hmember (.right (.right (.left (.seq (.token hx) hclosing))))
  · have hclosing : Sentence (rules values) (.rule .table)
        ([x] ++ ([] ++ [⟨.operator, "\x7d", Position.start⟩])) :=
      .rule (.seq (.token hx) (.seq (.right .absent) (hname (.token rfl))))
    exact hargument (.right (.left hclosing))
  · have hclosing : Sentence (rules values)
        (inOrder [sym "(", Form.maybe 1 (rule .explist), sym ")"])
        ([x] ++ ([] ++ [⟨.operator, ")", Position.start⟩])) :=
      .seq (.token hx) (.seq (.right .absent) (hname (.token rfl)))
    exact hargument (.left hclosing)

/-- How an access ends does not depend on what is before its last suffix. -/
theorem getLast?_kind_cons (last : AccessKind) (x : Suffix) (xs : List Suffix) :
    ((x :: xs).getLast?.map Suffix.kind).getD last = (xs.getLast?.map Suffix.kind).getD x.kind := by
  rw [List.getLast?_cons]
  cases xs.getLast? <;> rfl

theorem suffixes_means {last kind : AccessKind}
    (h : Takes version values (rules values (.suffixes last kind)) s t) :
    Means (.suffixes last kind) s t := by
  rcases h with h | h | h | ⟨_, -, hnever, -⟩
  · obtain ⟨m, ⟨-, -, x, hx, hfits, hkind⟩, _, ⟨-, -, xs, hxs, hmore, hend⟩, rfl, -⟩ := h
    exact ⟨x :: xs, hx.append hxs, ⟨hfits, hmore⟩, by rw [getLast?_kind_cons, hkind, hend]⟩
  · obtain ⟨m, ⟨-, -, x, hx, hfits, hkind⟩, _, ⟨-, -, xs, hxs, hmore, hend⟩, rfl, -⟩ := h
    exact ⟨x :: xs, hx.append hxs, ⟨hfits, hmore⟩, by rw [getLast?_kind_cons, hkind, hend]⟩
  · by_cases heq : last = kind
    · simp only [heq, if_true] at h
      obtain ⟨rfl, hend, -⟩ := h
      refine ⟨[], .nil, fun x hx => ?_, heq⟩
      cases s with
      | nil => cases hx
      | cons y s =>
        obtain rfl := Option.some.inj hx
        exact Bool.eq_false_iff.2 fun hstarts => hend (opens_suffix hstarts)
    · simp only [heq, if_false] at h
      obtain ⟨_, -, hnever, -⟩ := h
      cases hnever
  · cases hnever

theorem access_means {kind : AccessKind}
    (h : Takes version values (rules values (.access kind)) s t) : Means (.access kind) s t := by
  rcases h with h | h | ⟨_, -, hnever, -⟩
  · obtain ⟨_, ⟨x, -, hx, rfl⟩, _, ⟨-, -, xs, hxs, hfits, hkind⟩, rfl, -⟩ := h
    exact ⟨.mk (.name x.leaf) xs, hxs.cons, ⟨eq_of_beq hx, hfits⟩, hkind⟩
  · obtain ⟨_, ⟨x, -, hx, rfl⟩, _, ⟨-, -, e, he, hefits⟩, _, ⟨y, -, hy, rfl⟩, _,
      ⟨-, -, xs, hxs, hfits, hkind⟩, rfl, -⟩ := h
    refine ⟨.mk (.group x.leaf e y.leaf) xs, ?_,
      ⟨⟨hx, hefits, (Token.isOperator_iff.1 hy).2⟩, hfits⟩, hkind⟩
    rw [Access.leaves, Root.leaves, List.cons_append, List.append_assoc]
    exact (he.append hxs.cons).cons
  · cases hnever

/-! ## 7. Operands and tables -/

theorem simple_means (h : Takes version values (rules values .simple) s t) : Means .simple s t := by
  rcases h with h | h | h | h | h | h | ⟨_, -, hnever, -⟩
  · obtain ⟨x, -, hx, rfl⟩ := h
    exact ⟨.literal x.leaf, .one, hx⟩
  · obtain ⟨-, -, fields, hspans, hopening, hfits⟩ := h
    exact ⟨.table fields, hspans, hopening, hfits⟩
  · obtain ⟨_, ⟨x, -, hx, rfl⟩, _, ⟨-, -, b, hspans, hfits⟩, rfl, -⟩ := h
    exact ⟨.function x.leaf b, hspans.cons, hx, hfits⟩
  · obtain ⟨-, -, a, hspans, hfits, -⟩ := h
    exact ⟨.access a, hspans, hfits⟩
  · obtain ⟨-, -, a, hspans, hfits, -⟩ := h
    exact ⟨.access a, hspans, hfits⟩
  · obtain ⟨-, -, a, hspans, hfits, -⟩ := h
    exact ⟨.access a, hspans, hfits⟩
  · cases hnever

theorem field_means (h : Takes version values (rules values .field) s t) : Means .field s t := by
  intro hnext
  rcases h with h | h | h | ⟨_, -, hnever, -⟩
  · obtain ⟨_, ⟨x, -, hx, rfl⟩, _, ⟨-, -, key, hkey, hkfits⟩, _, ⟨y, -, hy, rfl⟩, _,
      ⟨z, -, hz, rfl⟩, _, ⟨-, -, value, hvalue, hvfits⟩, rfl, -⟩ := h
    exact ⟨.keyed x.leaf key y.leaf z.leaf value, (hkey.append hvalue.cons.cons).cons,
      hx, hkfits, (Token.isOperator_iff.1 hy).2, (Token.isOperator_iff.1 hz).2, hvfits⟩
  · obtain ⟨_, ⟨x, -, hx, rfl⟩, _, ⟨y, -, hy, rfl⟩, _, ⟨-, -, value, hvalue, hvfits⟩, rfl, -⟩ := h
    exact ⟨.named x.leaf y.leaf value, hvalue.cons.cons, eq_of_beq hx,
      (Token.isOperator_iff.1 hy).2, hvfits⟩
  · obtain ⟨hgood, -, value, hvalue, hvfits⟩ := h
    exact ⟨.positional value, hvalue, hvfits,
      fun hname => Expr.tail_noneOf hvfits (hvalue.genuine hgood) hname hnext⟩
  · cases hnever

/-- A comma or a semicolon, ahead of which no equals sign stands. -/
theorem separator_text (h : Takes version values (oneOf [sym ",", sym ";"]) s t) :
    ∃ x : Token, s = x :: t ∧ (x.text = "," ∨ x.text = ";") ∧ NoneOf ["="] s.head? := by
  rcases h with ⟨x, -, hx, rfl⟩ | ⟨x, -, hx, rfl⟩ | ⟨_, -, hnever, -⟩
  · have htext : x.text = "," := (Token.isOperator_iff.1 hx).2
    exact ⟨x, rfl, .inl htext, noneOf_singleton.2 fun y hy => by
      obtain rfl := Option.some.inj hy
      rw [htext]
      decide⟩
  · have htext : x.text = ";" := (Token.isOperator_iff.1 hx).2
    exact ⟨x, rfl, .inr htext, noneOf_singleton.2 fun y hy => by
      obtain rfl := Option.some.inj hy
      rw [htext]
      decide⟩
  · cases hnever

/-- Further fields, round by round. -/
theorem fields_of_rounds (hnext : NoneOf ["="] t.head?)
    (h : Relation.ReflTransGen (Takes version values
      (inOrder [oneOf [sym ",", sym ";"], rule .field])) s t) :
    ∃ more, Spans (fieldsLeaves more) s t ∧ FieldsFit t.head? more ∧ NoneOf ["="] s.head? := by
  induction h using Relation.ReflTransGen.head_induction_on with
  | refl => exact ⟨[], .nil, trivial, hnext⟩
  | head hround _ ih =>
    obtain ⟨_, hseparator, _, ⟨hgood, -, hfield⟩, rfl, -⟩ := hround
    obtain ⟨x, rfl, hx, hnone⟩ := separator_text hseparator
    obtain ⟨more, hmore, hfits, hequals⟩ := ih
    obtain ⟨f, hf, hffits⟩ := hfield hequals
    refine ⟨(x.leaf, f) :: more, (hf.append hmore).cons,
      ⟨hx, Field.front_noneOf hffits (hf.genuine hgood), ?_, hfits⟩, hnone⟩
    rwa [← hmore.head?]

theorem table_means (h : Takes version values (rules values .table) s t) : Means .table s t := by
  obtain ⟨_, ⟨x, -, hx, rfl⟩, _, hlist, rest, ⟨y, -, hy, rfl⟩, rfl, -⟩ := h
  have hopening : x.text = "\x7b" := (Token.isOperator_iff.1 hx).2
  have hclosing : y.text = "\x7d" := (Token.isOperator_iff.1 hy).2
  rcases hlist with hlist | ⟨rfl, -, -⟩
  · obtain ⟨m, ⟨hgood, -, hfield⟩, u, ⟨hrounds, -, -⟩, _, hlast, rfl, -⟩ := hlist
    obtain ⟨trailing, htrailing, hsays, hnone⟩ : ∃ trailing : Option Leaf,
        Spans trailing.toList u (y :: rest) ∧ (∀ l ∈ trailing, l.Says "," ∨ l.Says ";") ∧
          NoneOf ["="] u.head? := by
      rcases hlast with hlast | ⟨rfl, -, -⟩
      · obtain ⟨z, rfl, hz, hnone⟩ := separator_text hlast
        exact ⟨some z.leaf, .one, fun l hl => by obtain rfl := Option.some.inj hl; exact hz, hnone⟩
      · exact ⟨none, .nil, by simp, noneOf_singleton.2 fun z hz => by
          obtain rfl := Option.some.inj hz
          rw [hclosing]
          decide⟩
    obtain ⟨more, hmore, hfits, hequals⟩ := fields_of_rounds hnone hrounds
    obtain ⟨first, hfirst, hffits⟩ := hfield hequals
    have hnext : u.head? = Leaf.front trailing.toList (some y) := htrailing.head?
    refine ⟨.fields x.leaf first more trailing y.leaf,
      (hfirst.append (hmore.append (htrailing.append Spans.one))).cons, hx, hopening,
      Field.front_noneOf hffits (hfirst.genuine hgood), ?_, ?_, hsays, hclosing⟩
    · rw [Leaf.front_append]
      rwa [hmore.head?, hnext] at hffits
    · rwa [hnext] at hfits
  · exact ⟨.empty x.leaf y.leaf, Spans.one.cons, hx, hopening, hclosing⟩

end LuaLayout
