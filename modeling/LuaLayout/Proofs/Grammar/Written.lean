/-
LuaLayout.Proofs.Grammar.Written — a block that fits is derived.

A tree that fits is written down rule by rule, and wherever the grammar leaves a
part out, the token after the part is known: it fits there because nothing goes
on. A leaf of which only the text is asked has the kind that goes with the text,
since all leaves come from a text of the language.

The tree of an expression nests the operators that the grammar lists; so it is
first written as a chain of signs, operands and operators, which may be lengthened
at either end, and becomes an expression where no operator is ahead.
-/
import LuaLayout.Proofs.Grammar.Meanings

namespace LuaLayout

open Grammar (Name rules guardedValues sym word binop unop)
open Form (inOrder oneOf maybe many rule)

/-! ## 1. Leaves and what follows them -/

namespace Leaf

/-- The tokens of the leaves, in front of the given ones. -/
def before (leaves : List Leaf) (rest : List Token) : List Token := leaves.map (·.token) ++ rest

@[simp] theorem before_nil (rest : List Token) : before [] rest = rest := rfl

@[simp] theorem before_cons (l : Leaf) (leaves : List Leaf) (rest : List Token) :
    before (l :: leaves) rest = l.token :: before leaves rest := rfl

@[simp] theorem before_append (xs ys : List Leaf) (rest : List Token) :
    before (xs ++ ys) rest = before xs (before ys rest) := by
  simp [before]

@[simp] theorem head?_before (leaves : List Leaf) (rest : List Token) :
    (before leaves rest).head? = front leaves rest.head? := by
  cases leaves <;> rfl

end Leaf

open Leaf (before)

namespace Grammar

/-- The form takes the leaves where the given tokens follow them. -/
def Written (f : Form Name) (leaves : List Leaf) (rest : List Token) : Prop :=
  Derives (rules guardedValues) f (before leaves rest) rest

namespace Written

variable {f : Form Name} {parts : List (Form Name)} {test : Token → Bool} {depth : Nat}
variable {xs ys : List Leaf} {l : Leaf} {rest : List Token}

/-- A part and then the others. -/
theorem cons (h : Written f xs (before ys rest)) (hparts : Written (inOrder parts) ys rest) :
    Written (inOrder (f :: parts)) (xs ++ ys) rest := by
  unfold Written
  rw [Leaf.before_append]
  exact h.inOrder_cons hparts

/-- One leaf and then the others. -/
theorem leaf (h : test l.token = true) (hparts : Written (inOrder parts) ys rest) :
    Written (inOrder (.token test :: parts)) (l :: ys) rest := Derives.inOrder_token h hparts

theorem last (h : Written f xs rest) : Written (inOrder [f]) xs rest := Derives.inOrder_last h

/-- One leaf, and nothing else. -/
theorem only (h : test l.token = true) : Written (inOrder [.token test]) [l] rest :=
  last (Derives.token h)

/-- A part that is left out. -/
theorem skip (h : ¬ Opens (rules guardedValues) depth f (before ys rest))
    (hparts : Written (inOrder parts) ys rest) :
    Written (inOrder (maybe depth f :: parts)) ys rest :=
  Derives.inOrder_cons (.right (.absent h)) hparts

/-- One more round. -/
theorem more (h : Written f xs (before ys rest)) (hmore : Written (many depth f) ys rest) :
    Written (many depth f) (xs ++ ys) rest := by
  unfold Written
  rw [Leaf.before_append]
  exact .more h hmore

end Written

end Grammar

open Grammar (Written)

variable {version : Version} {next : Option Token} {rest s t : List Token}

/-! ## 2. Where a part is left out -/

/-- A part that begins with a token of some kind, where there is none of them. -/
theorem not_opens_token {test : Token → Bool} {parts : List (Form Name)}
    (h : ∀ x ∈ s.head?, test x = false) :
    ¬ Opens (rules guardedValues) 1 (inOrder (.token test :: parts)) s :=
  (Grammar.begins _).not_opens rfl fun x hx => by simp [h x hx]

theorem not_opens_sym {text : String} {parts : List (Form Name)} (h : NoneOf [text] s.head?) :
    ¬ Opens (rules guardedValues) 1 (inOrder (sym text :: parts)) s :=
  not_opens_token fun x hx => by
    rw [Token.isOperator, Bool.and_eq_false_iff]
    exact .inr (beq_eq_false_iff_ne.2 (noneOf_singleton.1 h x hx))

theorem not_opens_word {text : String} {parts : List (Form Name)} (h : NoneOf [text] s.head?) :
    ¬ Opens (rules guardedValues) 1 (inOrder (word text :: parts)) s :=
  not_opens_token fun x hx => by
    rw [Token.isKeyword, Bool.and_eq_false_iff]
    exact .inr (beq_eq_false_iff_ne.2 (noneOf_singleton.1 h x hx))

/-- Another text is ahead. -/
theorem Leaf.Says.noneOf {l : Leaf} {text other : String} (h : l.Says text) (hne : text ≠ other) :
    NoneOf [other] (some l.token) := by
  refine noneOf_singleton.2 fun x hx => ?_
  obtain rfl := Option.some.inj hx
  rw [h]
  exact hne

/-- A symbol that begins no expression. -/
theorem startsExpr_symbol {x : Token} {text : String} (h : x.isOperator text = true)
    (hmem : text ∉ "\x7b" :: "(" :: Powers.unaryOperators) : x.startsExpr = false := by
  obtain ⟨hkind, rfl⟩ := Token.isOperator_iff.1 h
  simp only [List.mem_cons, not_or] at hmem
  simp [Token.startsExpr, Parser.isUnary, Parser.isLiteral, Token.isOperator, Token.isKeyword,
    hkind, hmem]

/-- A leaf that opens a statement by a word is a keyword. -/
theorem Leaf.Opens.isKeyword {l : Leaf} {form : StatementForm} (h : l.Opens form)
    (hg : l.token.Genuine version) (hform : form ∉ [.label, .empty]) :
    l.token.isKeyword form.opening = true := by
  have hwords : form.opening ∉ Vocabulary.wordOperators ∧
      form.opening ∉ Vocabulary.allOperators := by
    cases form with
    | label => exact absurd (List.mem_cons_self ..) hform
    | empty => exact absurd (List.mem_cons_of_mem _ (List.mem_cons_self ..)) hform
    | _ => decide
  have htext : l.token.text = form.opening := h.saying
  refine Token.isKeyword_iff.2 ⟨?_, htext⟩
  by_cases hkeyword : l.token.kind = .keyword
  · exact hkeyword
  · have hkind : l.token.kind = .operator := by
      unfold Leaf.Opens StatementForm.ofToken? at h
      split at h
      · next hor => simpa [hkeyword] using hor
      · cases h
    rcases hg.operator_cases hkind with ⟨-, hmem⟩ | hlex
    · exact absurd (htext ▸ hmem) hwords.1
    · have hmem := Lexeme.mem_allOperators.2 (Lexeme.isLexeme_operator.1 hlex)
      exact absurd (htext ▸ hmem) hwords.2

/-! ## 3. Names and parameters -/

/-- Names after separators. -/
theorem names_written {separator : String} (hmem : separator ∈ Vocabulary.baseOperators)
    (hend : NoneOf [separator] rest.head?) :
    ∀ names : List (Leaf × Leaf), Leaf.NamesFit separator names →
      AllGenuine version (Leaf.ofPairs Leaf.alone names) →
      Written (many 1 (inOrder [sym separator, Grammar.name])) (Leaf.ofPairs Leaf.alone names) rest
  | [], _, _ => .done (not_opens_sym hend)
  | (l, n) :: names, h, hg => by
    obtain ⟨⟨htext, hname⟩, hnames⟩ := List.forall_mem_cons.1 h
    simp only [Leaf.ofPairs, Leaf.alone_eq, List.cons_append, List.nil_append,
      AllGenuine.cons_iff] at hg
    have hround : Written (inOrder [sym separator, Grammar.name]) [l, n]
        (before (Leaf.ofPairs Leaf.alone names) rest) :=
      .leaf (hg.1.isOperator_of_text hmem htext) (.only (beq_iff_eq.2 hname))
    exact hround.more (names_written hmem hend names hnames hg.2.2)

/-- The method of a function, if it has one. -/
theorem method_written {method : Option (Leaf × Leaf)} (hend : NoneOf [":"] rest.head?)
    (h : Leaf.NamesFit ":" method.toList)
    (hg : AllGenuine version (Leaf.ofPair Leaf.alone method)) :
    Written (maybe 1 (inOrder [sym ":", Grammar.name])) (Leaf.ofPair Leaf.alone method) rest := by
  obtain _ | ⟨colon, name⟩ := method
  · exact .right (.absent (not_opens_sym hend))
  · obtain ⟨hcolon, hname⟩ := h (colon, name) (by simp)
    have hsymbol := (AllGenuine.cons_iff.1 hg).1.isOperator_of_text (by decide) hcolon
    exact .left (Written.leaf hsymbol (.only (beq_iff_eq.2 hname)))

/-- Parameters are no part of a name. -/
theorem Body.Fits.noneOf {b : Body} (h : b.Fits) {text : String} (htext : "(" ≠ text) :
    NoneOf [text] (before b.leaves rest).head? := by
  obtain ⟨l, leaves, heq, hround⟩ := Parser.Body.Fits.starts h
  rw [heq]
  exact Leaf.Says.noneOf hround htext

theorem LocalName.written {n : LocalName} (h : n.Fits rest.head?)
    (hg : AllGenuine version n.leaves) : Written (rule .att) n.leaves rest := by
  obtain ⟨name, mark⟩ := n
  obtain ⟨hname, hmark⟩ := h
  refine .rule (Written.leaf (beq_iff_eq.2 hname) ?_)
  cases mark with
  | none => exact .skip (not_opens_sym hmark) Derives.inOrder_nil
  | some mark =>
    obtain ⟨hopening, hword, hclosing⟩ := hmark
    simp only [LocalName.leaves, Option.map_some, Option.getD_some, Mark.leaves,
      AllGenuine.cons_iff] at hg
    refine Written.last (Derives.left ?_)
    exact Written.leaf (hg.2.1.isOperator_of_text (by decide) hopening)
      (.leaf (beq_iff_eq.2 hword)
        (.only (hg.2.2.2.1.isOperator_of_text (by decide) hclosing)))

/-- Local names after commas. -/
theorem localNames_written : ∀ names : List (Leaf × LocalName),
    LocalName.MoreFit rest.head? names → AllGenuine version (Leaf.ofPairs LocalName.leaves names) →
      Written (many 1 (inOrder [sym ",", rule .att])) (Leaf.ofPairs LocalName.leaves names) rest
  | [], h, _ => .done (not_opens_sym h)
  | (comma, n) :: names, h, hg => by
    obtain ⟨hcomma, hn, hnames⟩ := h
    simp only [Leaf.ofPairs, List.cons_append, AllGenuine.cons_iff, AllGenuine.append_iff] at hg
    rw [← Leaf.head?_before] at hn
    have hround : Written (inOrder [sym ",", rule .att]) (comma :: n.leaves)
        (before (Leaf.ofPairs LocalName.leaves names) rest) :=
      .leaf (hg.1.isOperator_of_text (by decide) hcomma)
        (.last (LocalName.written hn hg.2.1))
    exact hround.more (localNames_written names hnames hg.2.2)

/-- Where parameters go on with a comma, an ellipsis stands there. -/
theorem not_opens_parameter
    (h : ∀ x u, s = x :: u → x.isOperator "," = true → ∀ y ∈ u.head?, y.kind ≠ .name) :
    ¬ Opens (rules guardedValues) 2 (inOrder [sym ",", Grammar.name]) s := by
  refine (Grammar.begins _).not_opens_pair ?_ rfl fun x u hs hx y hy => ?_
  · intro v hv
    cases hv
    exact ⟨_, rfl⟩
  · exact beq_eq_false_iff_ne.2 (h x u hs hx y hy)

/-- The names after the first parameter, and the ellipsis after them. -/
def Grammar.moreParameters : List (Form Name) :=
  [many 2 (inOrder [sym ",", Grammar.name]), maybe 1 (inOrder [sym ",", Grammar.ellipsis])]

theorem more_written (hend : NoneOf [","] rest.head?) : ∀ names : List (Leaf × Leaf),
    Parameters.MoreFit names → AllGenuine version (Leaf.ofPairs Leaf.alone names) →
      Written (inOrder Grammar.moreParameters) (Leaf.ofPairs Leaf.alone names) rest := by
  have hnone : Written (inOrder Grammar.moreParameters) [] rest := by
    refine Derives.inOrder_cons (.done (not_opens_parameter fun x u hs hx => ?_))
      (.inOrder_cons (.right (.absent (not_opens_sym hend))) .inOrder_nil)
    exact absurd (Token.isOperator_iff.1 hx).2 (noneOf_singleton.1 hend x (congrArg List.head? hs))
  have hround : ∀ {l n : Leaf} {leaves : List Leaf}, l.token.Genuine version → l.Says "," →
      n.IsName → Written (inOrder Grammar.moreParameters) leaves rest →
      Written (inOrder Grammar.moreParameters) (l :: n :: leaves) rest := by
    intro l n leaves hg htext hname h
    have hone : Written (inOrder [sym ",", Grammar.name]) [l, n] (before leaves rest) :=
      .leaf (hg.isOperator_of_text (by decide) htext) (.only (beq_iff_eq.2 hname))
    cases h with
    | seq hmany hlast => exact .inOrder_cons (.more hone hmany) hlast
  intro names
  induction names with
  | nil => exact fun _ _ => hnone
  | cons p names ih =>
    obtain ⟨comma, last⟩ := p
    intro h hg
    simp only [Leaf.ofPairs, Leaf.alone_eq, List.cons_append, List.nil_append,
      AllGenuine.cons_iff] at hg ⊢
    cases names with
    | nil =>
      obtain ⟨hcomma, hname | hdots⟩ := h
      · exact hround hg.1 hcomma hname hnone
      · have hsymbol := hg.1.isOperator_of_text (by decide) hcomma
        refine Derives.inOrder_cons (.done (not_opens_parameter fun x u hs _ y hy hkind => ?_))
          (.inOrder_last (.left (Written.leaf hsymbol (.only hdots))))
        cases hs
        obtain rfl := Option.some.inj hy
        simp [Parser.isEllipsis, hkind] at hdots
    | cons q names =>
      obtain ⟨hcomma, hname, hmore⟩ := h
      exact hround hg.1 hcomma hname (ih hmore hg.2.2)

theorem Parameters.written {p : Parameters} (h : p.Fits) (hg : AllGenuine version p.leaves) :
    Written (rule .parameters) p.leaves rest := by
  cases p with
  | none opening closing =>
    obtain ⟨hopening, hclosing⟩ := h
    simp only [Parameters.leaves, AllGenuine.cons_iff] at hg
    have hround := hg.1.isOperator_of_text (by decide) hopening
    have hend := hg.2.1.isOperator_of_text (by decide) hclosing
    refine .rule (Written.leaf hround (.skip ?_ (.only hend)))
    refine (Grammar.begins _).not_opens rfl fun x hx => ?_
    obtain rfl := Option.some.inj hx
    have hkind := (Token.isOperator_iff.1 hend).1
    simp [hkind]
  | some opening first more closing =>
    obtain ⟨hopening, -, hclosing, hnames⟩ := h
    simp only [Parameters.leaves, List.cons_append, AllGenuine.cons_iff,
      AllGenuine.append_iff] at hg
    have hround := hg.1.isOperator_of_text (by decide) hopening
    have hend := hg.2.2.2.1.isOperator_of_text (by decide) hclosing
    refine .rule (Written.leaf hround (.cons (.left ?_) (.only hend)))
    rcases hnames with ⟨hdots, rfl⟩ | ⟨hname, hmore⟩
    · exact Derives.oneOf_at 1 rfl (.token hdots)
    · refine Derives.oneOf_at 0 rfl (Written.leaf (beq_iff_eq.2 hname) ?_)
      exact more_written (hclosing.noneOf (by decide)) more hmore hg.2.2.1

/-! ## 4. Chains of operands -/

namespace Grammar

/-- Operands, each after a binary operator. -/
def Operations : List Token → List Token → Prop :=
  Relation.ReflTransGen (Derives (rules guardedValues) (inOrder [binop, rule .operand]))

/-- Signs, an operand and further operands after operators. -/
def Chained (s t : List Token) : Prop :=
  ∃ a m, Derives (rules guardedValues) (many 1 unop) s a ∧
    Derives (rules guardedValues) (rule .simple) a m ∧ Operations m t

namespace Chained

variable {m : List Token} {x : Token}

/-- An operand without signs. -/
theorem simple (h : Derives (rules guardedValues) (rule .simple) s t)
    (hsign : ∀ x ∈ s.head?, Parser.isUnary x = false) : Chained s t :=
  ⟨s, t, .done ((begins _).not_opens rfl hsign), h, .refl⟩

theorem sign (hx : Parser.isUnary x = true) (h : Chained s t) : Chained (x :: s) t := by
  obtain ⟨a, m, hsigns, hsimple, hmore⟩ := h
  exact ⟨a, m, .more (.token hx) hsigns, hsimple, hmore⟩

theorem append (h : Chained s m) (hmore : Operations m t) : Chained s t := by
  obtain ⟨a, b, hsigns, hsimple, hfirst⟩ := h
  exact ⟨a, b, hsigns, hsimple, hfirst.trans hmore⟩

/-- The signs and the operand are one operand of the grammar. -/
theorem operand (h : Chained s t) :
    ∃ m, Derives (rules guardedValues) (rule .operand) s m ∧ Operations m t := by
  obtain ⟨a, m, hsigns, hsimple, hmore⟩ := h
  exact ⟨m, .rule (.inOrder_cons hsigns (.inOrder_last hsimple)), hmore⟩

/-- An operator and a chain after it go on with one. -/
theorem operations (hx : (Parser.binaryPowers? x).isSome = true) (h : Chained s t) :
    Operations (x :: s) t := by
  obtain ⟨m, hoperand, hmore⟩ := h.operand
  exact .head (.inOrder_token ((binop_eq x).trans hx) (.inOrder_last hoperand)) hmore

/-- A chain is an expression where no operator is ahead. -/
theorem exp (h : Chained s t) (hend : EndsExpr 0 t.head?) :
    Derives (rules guardedValues) (rule .exp) s t := by
  obtain ⟨m, hoperand, hmore⟩ := h.operand
  have hnever : ¬ Opens (rules guardedValues) 1 (inOrder [binop, rule .operand]) t := by
    refine not_opens_token fun x hx => ?_
    rw [binop_eq, binaryPowers?_of_endsExpr hend x hx]
    rfl
  exact .rule (.inOrder_cons hoperand (.inOrder_last (.many_of_rounds hmore hnever)))

end Chained

end Grammar

open Grammar (Chained Operations)

/-- A whole expression ends where no operator is ahead. -/
theorem exp_written {e : Expr} (h : e.Fits 0 rest.head?)
    (hchain : Chained (before e.leaves rest) rest) : Written (rule .exp) e.leaves rest := by
  obtain ⟨operand, operations⟩ := e
  exact hchain.exp (operationsFit_iff.1 h.2).2

/-- An operand without signs is a chain. -/
theorem Operand.Fits.chained {o : Operand} (h : o.Fits next)
    (hsimple : ∀ operator argument, o ≠ .unary operator argument)
    (hwritten : Written (rule .simple) o.leaves rest) : Chained (before o.leaves rest) rest := by
  refine .simple hwritten fun x hx => Bool.eq_false_iff.2 fun hunary => ?_
  obtain ⟨leaves, heq⟩ := o.leaves_eq
  rw [heq] at hx
  obtain rfl := Option.some.inj hx
  obtain ⟨operator, argument, hsigned⟩ := h.eq_unary hunary
  exact hsimple operator argument hsigned

/-! ## 5. Ends of accesses, fields and blocks -/

/-- The suffixes of an access end where nothing goes on with it. -/
theorem suffixes_end {last : AccessKind} (h : EndsAccess rest.head?) :
    Derives (rules guardedValues) (rule (.suffixes last last)) rest rest := by
  refine .rule ?_
  simp only [rules, if_true]
  refine .oneOf_at 2 rfl (.absent ((Grammar.begins _).not_opens rfl fun x hx => ?_))
  have hnone := h x hx
  simp only [Token.startsSuffix, Bool.or_eq_false_iff] at hnone
  simp [Grammar.first, hnone]

/-- No field begins with a closing brace. -/
theorem first_field_brace {x : Token} (h : x.isOperator "\x7d" = true) :
    Grammar.first .field x = false := by
  have htext := (Token.isOperator_iff.1 h).2
  simp [Grammar.first, startsExpr_symbol h (by decide), Token.isOperator, htext]

/-- Fields end before the closing brace, and before a separator in front of it. -/
theorem not_opens_field {trailing : Option Leaf} {closing : Leaf}
    (hclosing : closing.token.isOperator "\x7d" = true) :
    ¬ Opens (rules guardedValues) 2 (inOrder [oneOf [sym ",", sym ";"], rule .field])
      (before trailing.toList (closing.token :: rest)) := by
  refine (Grammar.begins _).not_opens_pair ?_ rfl fun x u hs hx y hy => ?_
  · intro v hv
    cases hv with
    | left hcomma =>
      cases hcomma
      exact ⟨_, rfl⟩
    | right hother =>
      cases hother with
      | left hsemicolon =>
        cases hsemicolon
        exact ⟨_, rfl⟩
      | right hnever =>
        cases hnever with
        | token hfalse => cases hfalse
  · cases trailing with
    | none =>
      cases hs
      have htext := (Token.isOperator_iff.1 hclosing).2
      simp [Token.isOperator, htext] at hx
    | some l =>
      cases hs
      obtain rfl := Option.some.inj hy
      exact first_field_brace hclosing

theorem separator_written {l : Leaf} (h : l.Says "," ∨ l.Says ";") (hg : l.token.Genuine version) :
    Written (oneOf [sym ",", sym ";"]) [l] rest := by
  rcases h with h | h
  · exact .oneOf_at 0 rfl (.token (hg.isOperator_of_text (by decide) h))
  · exact .oneOf_at 1 rfl (.token (hg.isOperator_of_text (by decide) h))

/-- A separator may stand after the last field. -/
theorem trailing_written {trailing : Option Leaf} {closing : Leaf}
    (htrailing : ∀ l ∈ trailing, l.Says "," ∨ l.Says ";")
    (hg : AllGenuine version trailing.toList) (hclosing : closing.token.isOperator "\x7d" = true) :
    Written (maybe 1 (oneOf [sym ",", sym ";"])) trailing.toList (closing.token :: rest) := by
  cases trailing with
  | none =>
    refine .right (.absent ((Grammar.begins _).not_opens rfl fun x hx => ?_))
    obtain rfl := Option.some.inj hx
    have htext := (Token.isOperator_iff.1 hclosing).2
    simp [Token.isOperator, htext]
  | some l => exact .left (separator_written (htrailing l rfl) (AllGenuine.cons_iff.1 hg).1)

/-- A block ends at a word that ends blocks. -/
theorem not_opens_stat (h : rest.head?.all Parser.endsBlock = true) :
    ¬ Opens (rules guardedValues) 1 (rule .stat) rest := by
  refine (Grammar.begins _).not_opens rfl fun x hx => ?_
  have hends : Parser.endsBlock x = true := by
    have heq : rest.head? = some x := hx
    rwa [heq] at h
  cases hfirst : Grammar.first .stat x with
  | false => exact hfirst
  | true =>
    rw [Grammar.not_endsBlock_of_first hfirst] at hends
    cases hends

/-! ## 6. Statements from their parts

What is known of the expressions and blocks inside a statement is that they are written
wherever they fit. -/

/-- The expression is a chain wherever it fits. -/
def Expr.Chains (version : Version) (e : Expr) : Prop :=
  ∀ rest : List Token, e.Fits 0 rest.head? → AllGenuine version e.leaves →
    Chained (before e.leaves rest) rest

theorem Expr.Chains.written {e : Expr} (he : e.Chains version) (h : e.Fits 0 rest.head?)
    (hg : AllGenuine version e.leaves) : Written (rule .exp) e.leaves rest :=
  exp_written h (he rest h hg)

/-- The expressions are a list of the grammar wherever they fit. -/
def Exprs.AreWritten (version : Version) (es : Exprs) : Prop :=
  ∀ rest : List Token, es.Fits rest.head? → AllGenuine version es.leaves →
    Written (rule .explist) es.leaves rest

/-- The block is one of the grammar wherever it fits. -/
def Block.IsWritten (version : Version) (b : Block) : Prop :=
  ∀ rest : List Token, b.Fits rest.head? → AllGenuine version b.leaves →
    Written (rule .block) b.leaves rest

section

variable {word name equals comma opening closing between : Leaf} {start stop condition : Expr}
  {step : Option (Leaf × Expr)} {block : Block} {values : Exprs}

/-- A condition with the branches after the first one, and the rest after them. -/
theorem conditional_written {more : List Branch} {otherwise : Option (Leaf × Block)}
    (h : (Stat.conditional (.mk word condition opening block) more otherwise closing).Fits
      rest.head?)
    (hg : AllGenuine version
      (Stat.conditional (.mk word condition opening block) more otherwise closing).leaves)
    (hexp : condition.Chains version) (hstatements : block.IsWritten version)
    (hbranches : ∀ rest : List Token, NoneOf ["elseif"] rest.head? → BranchesFit rest.head? more →
      AllGenuine version (branchesLeaves more) →
      Written (many 1 (inOrder [Grammar.word "elseif", rule .exp, Grammar.word "then", rule .block]))
        (branchesLeaves more) rest)
    (hrest : ∀ rest : List Token, NoneOf ["else"] rest.head? → OtherwiseFits rest.head? otherwise →
      AllGenuine version (otherwiseLeaves otherwise) →
      Written (maybe 1 (inOrder [Grammar.word "else", rule .block])) (otherwiseLeaves otherwise)
        rest) :
    Written (rule .stat)
      (Stat.conditional (.mk word condition opening block) more otherwise closing).leaves rest := by
  obtain ⟨hopens, ⟨hcondition, hopening, hblock⟩, hmore, hotherwise, hclosing⟩ := h
  simp only [Stat.leaves, Branch.leaves, List.cons_append, List.append_assoc, AllGenuine.cons_iff,
    AllGenuine.append_iff] at hg ⊢
  obtain ⟨hgword, hgcondition, hgopening, hgblock, hgmore, hgotherwise, hgclosing, -⟩ := hg
  have hword := Leaf.Opens.isKeyword (hopens word rfl) hgword (by decide)
  have hthen := hgopening.isKeyword_of_text (by decide) hopening
  have hend := hgclosing.isKeyword_of_text (by decide) hclosing
  have hnoElseif := Parser.noneOf_front_otherwise hotherwise
    (noneOf_singleton.1 (hclosing.noneOf (show "end" ≠ "elseif" by decide)))
  have hafter : (before (otherwiseLeaves otherwise) (closing.token :: rest)).head? =
      Leaf.front (otherwiseLeaves otherwise) (some closing.token) := Leaf.head?_before ..
  rw [← hafter] at hmore hnoElseif
  rw [Leaf.front_append, ← hafter, ← Leaf.head?_before] at hblock
  have hfirst : Written (rule .exp) condition.leaves (before (opening :: (block.leaves ++
      (branchesLeaves more ++ (otherwiseLeaves otherwise ++ [closing])))) rest) :=
    hexp.written hcondition hgcondition
  have hthenBlock : Written (rule .block) block.leaves
      (before (branchesLeaves more ++ (otherwiseLeaves otherwise ++ [closing])) rest) := by
    rw [Leaf.before_append, Leaf.before_append]
    exact hstatements _ hblock hgblock
  have hothers : Written
      (many 1 (inOrder [Grammar.word "elseif", rule .exp, Grammar.word "then", rule .block]))
      (branchesLeaves more) (before (otherwiseLeaves otherwise ++ [closing]) rest) := by
    rw [Leaf.before_append]
    exact hbranches _ hnoElseif hmore hgmore
  have hlast : Written (maybe 1 (inOrder [Grammar.word "else", rule .block]))
      (otherwiseLeaves otherwise) (before [closing] rest) :=
    hrest _ (hclosing.noneOf (by decide)) hotherwise hgotherwise
  exact .rule (.oneOf_at 7 rfl (Written.leaf hword (.cons hfirst (.leaf hthen (.cons hthenBlock
    (.cons hothers (.cons hlast (.only hend))))))))

/-- A loop that counts, with a step or without one. -/
theorem countingLoop_written
    (h : (Stat.countingLoop word name equals start comma stop step opening block closing).Fits
      rest.head?)
    (hg : AllGenuine version
      (Stat.countingLoop word name equals start comma stop step opening block closing).leaves)
    (hfrom : start.Chains version) (hto : stop.Chains version)
    (hby : ∀ rest : List Token, NoneOf [","] rest.head? → StepFits rest.head? step →
      AllGenuine version (stepLeaves step) →
      Written (maybe 1 (inOrder [sym ",", rule .exp])) (stepLeaves step) rest)
    (hstatements : block.IsWritten version) :
    Written (rule .stat)
      (Stat.countingLoop word name equals start comma stop step opening block closing).leaves
      rest := by
  obtain ⟨hopens, hname, hequals, hstart, hcomma, hstop, hstep, hopening, hblock, hclosing⟩ := h
  simp only [Stat.leaves, AllGenuine.cons_iff, AllGenuine.append_iff] at hg
  obtain ⟨hgword, -, hgequals, hgstart, hgcomma, hgstop, hgstep, hgopening, hgblock, hgclosing,
    -⟩ := hg
  have hword := hopens.isKeyword hgword (by decide)
  have hsign := hgequals.isOperator_of_text (by decide) hequals
  have hseparator := hgcomma.isOperator_of_text (by decide) hcomma
  have hdo := hgopening.isKeyword_of_text (by decide) hopening
  have hend := hgclosing.isKeyword_of_text (by decide) hclosing
  have hafter : (before (stepLeaves step)
      (before (opening :: (block.leaves ++ [closing])) rest)).head? =
        Leaf.front (stepLeaves step) (some opening.token) := Leaf.head?_before ..
  rw [← hafter, ← Leaf.before_append] at hstop
  have hfirst : Written (rule .exp) start.leaves (before (comma :: (stop.leaves ++
      (stepLeaves step ++ opening :: (block.leaves ++ [closing])))) rest) :=
    hfrom.written hstart hgstart
  have hlast : Written (rule .exp) stop.leaves
      (before (stepLeaves step ++ opening :: (block.leaves ++ [closing])) rest) :=
    hto.written hstop hgstop
  have hdistance : Written (maybe 1 (inOrder [sym ",", rule .exp])) (stepLeaves step)
      (before (opening :: (block.leaves ++ [closing])) rest) :=
    hby _ (hopening.noneOf (by decide)) hstep hgstep
  have hbody : Written (rule .block) block.leaves (before [closing] rest) :=
    hstatements _ hblock hgblock
  exact .rule (.oneOf_at 8 rfl (Written.leaf hword (.leaf (beq_iff_eq.2 hname) (.leaf hsign
    (.cons hfirst (.leaf hseparator (.cons hlast (.cons hdistance (.leaf hdo
      (.cons hbody (.only hend)))))))))))

/-- A loop over the values of expressions. -/
theorem iteration_written {more : List (Leaf × Leaf)}
    (h : (Stat.iteration word name more between values opening block closing).Fits rest.head?)
    (hg : AllGenuine version
      (Stat.iteration word name more between values opening block closing).leaves)
    (hexps : values.AreWritten version) (hstatements : block.IsWritten version) :
    Written (rule .stat)
      (Stat.iteration word name more between values opening block closing).leaves rest := by
  obtain ⟨hopens, hname, hmore, hbetween, hvalues, hopening, hblock, hclosing⟩ := h
  simp only [Stat.leaves, AllGenuine.cons_iff, AllGenuine.append_iff] at hg
  obtain ⟨hgword, -, hgmore, hgbetween, hgvalues, hgopening, hgblock, hgclosing, -⟩ := hg
  have hword := hopens.isKeyword hgword (by decide)
  have hin := hgbetween.isKeyword_of_text (by decide) hbetween
  have hdo := hgopening.isKeyword_of_text (by decide) hopening
  have hend := hgclosing.isKeyword_of_text (by decide) hclosing
  have hnames : Written (many 1 (inOrder [sym ",", Grammar.name])) (Leaf.ofPairs Leaf.alone more)
      (before (between :: (values.leaves ++ opening :: (block.leaves ++ [closing]))) rest) :=
    names_written (by decide) (hbetween.noneOf (by decide)) more hmore hgmore
  have hlist : Written (rule .explist) values.leaves
      (before (opening :: (block.leaves ++ [closing])) rest) := hexps _ hvalues hgvalues
  have hbody : Written (rule .block) block.leaves (before [closing] rest) :=
    hstatements _ hblock hgblock
  exact .rule (.oneOf_at 9 rfl (Written.leaf hword (.leaf (beq_iff_eq.2 hname) (.cons hnames
    (.leaf hin (.cons hlist (.leaf hdo (.cons hbody (.only hend)))))))))

/-- A function under a name, the name of a field or that of a method. -/
theorem function_written {path : List (Leaf × Leaf)} {method : Option (Leaf × Leaf)} {body : Body}
    (h : (Stat.function word name path method body).Fits rest.head?)
    (hg : AllGenuine version (Stat.function word name path method body).leaves)
    (hlast : body.Fits → AllGenuine version body.leaves → Written (rule .body) body.leaves rest) :
    Written (rule .stat) (Stat.function word name path method body).leaves rest := by
  obtain ⟨hopens, hname, hpath, hmethod, hbody⟩ := h
  simp only [Stat.leaves, AllGenuine.cons_iff, AllGenuine.append_iff] at hg
  obtain ⟨hgword, -, hgpath, hgmethod, hgbody⟩ := hg
  have hword := hopens.isKeyword hgword (by decide)
  have hdots : NoneOf ["."]
      (before (Leaf.ofPair Leaf.alone method ++ body.leaves) rest).head? := by
    obtain _ | ⟨colon, name⟩ := method
    · exact hbody.noneOf (by decide)
    · exact Leaf.Says.noneOf (hmethod (colon, name) (by simp)).1 (by decide)
  have hnames : Written (many 1 (inOrder [sym ".", Grammar.name])) (Leaf.ofPairs Leaf.alone path)
      (before (Leaf.ofPair Leaf.alone method ++ body.leaves) rest) :=
    names_written (by decide) hdots path hpath hgpath
  have hcolon : Written (maybe 1 (inOrder [sym ":", Grammar.name]))
      (Leaf.ofPair Leaf.alone method) (before body.leaves rest) :=
    method_written (hbody.noneOf (by decide)) hmethod hgmethod
  exact .rule (.oneOf_at 10 rfl (Written.leaf hword (.leaf (beq_iff_eq.2 hname) (.cons hnames
    (.cons hcolon (.last (hlast hbody hgbody)))))))

/-- A declaration of local names, with values or without. -/
theorem declaration_written {first : LocalName} {more : List (Leaf × LocalName)}
    {assigned : Option (Leaf × Exprs)}
    (h : (Stat.localNames word first more assigned).Fits rest.head?)
    (hg : AllGenuine version (Stat.localNames word first more assigned).leaves)
    (hexps : ∀ p ∈ assigned, p.2.AreWritten version) :
    Written (rule .stat) (Stat.localNames word first more assigned).leaves rest := by
  cases assigned with
  | none =>
    obtain ⟨hopens, -, hfirst, hmore, hnone⟩ := h
    simp only [Stat.leaves, AllGenuine.cons_iff, AllGenuine.append_iff] at hg
    obtain ⟨hgword, hgfirst, hgmore⟩ := hg
    have hword := hopens.isKeyword hgword (by decide)
    rw [← Leaf.head?_before] at hfirst
    have hnames : Written (many 1 (inOrder [sym ",", rule .att]))
        (Leaf.ofPairs LocalName.leaves more) (before [] rest) :=
      localNames_written more hmore hgmore
    have hlast : Written (inOrder [maybe 1 (inOrder [sym "=", rule .explist])]) [] rest :=
      .skip (not_opens_sym hnone) Derives.inOrder_nil
    have hstat : Written (rule .stat) (word :: (first.leaves ++
        (Leaf.ofPairs LocalName.leaves more ++ []))) rest := by
      refine .rule (.oneOf_at 12 rfl (Written.leaf hword (.cons ?_ (.cons hnames hlast))))
      rw [List.append_nil]
      exact LocalName.written hfirst hgfirst
    rwa [List.append_nil] at hstat
  | some pair =>
    obtain ⟨equals, values⟩ := pair
    obtain ⟨hopens, -, hfirst, hmore, hequals, hvalues⟩ := h
    simp only [Stat.leaves, AllGenuine.cons_iff, AllGenuine.append_iff] at hg
    obtain ⟨hgword, hgfirst, hgmore, hgequals, hgvalues⟩ := hg
    have hword := hopens.isKeyword hgword (by decide)
    have hsign := hgequals.isOperator_of_text (by decide) hequals
    have hafter : (before (equals :: values.leaves) rest).head? = some equals.token := rfl
    rw [← hafter, ← Leaf.head?_before, ← Leaf.before_append] at hfirst
    have hatt : Written (rule .att) first.leaves
        (before (Leaf.ofPairs LocalName.leaves more ++ equals :: values.leaves) rest) :=
      LocalName.written hfirst hgfirst
    have hnames : Written (many 1 (inOrder [sym ",", rule .att]))
        (Leaf.ofPairs LocalName.leaves more) (before (equals :: values.leaves) rest) :=
      localNames_written more hmore hgmore
    have hlist : Written (rule .explist) values.leaves rest :=
      hexps (equals, values) rfl rest hvalues hgvalues
    exact .rule (.oneOf_at 12 rfl (Written.leaf hword (.cons hatt (.cons hnames
      (.last (.left (Written.leaf hsign (.last hlist))))))))

/-- A return, with values or without: what ends it stands there or does not. -/
theorem result_written {values : Option Exprs} (h : (Stat.result word values).Fits rest.head?)
    (hg : AllGenuine version (Stat.result word values).leaves)
    (hexps : ∀ es ∈ values, es.AreWritten version) :
    Written (rule .stat) (Stat.result word values).leaves rest := by
  cases values with
  | none =>
    have hword := h.1.isKeyword (AllGenuine.cons_iff.1 hg).1 (by decide)
    exact .rule (.oneOf_at 13 rfl (Derives.inOrder_token hword
      (.inOrder_last (.oneOf_at 0 rfl (.ahead h.2)))))
  | some values =>
    obtain ⟨hopens, hstarts, hvalues⟩ := h
    obtain ⟨hgword, hgvalues⟩ := AllGenuine.cons_iff.1 hg
    have hword := hopens.isKeyword hgword (by decide)
    have hlist : Written (rule .explist) values.leaves rest := hexps values rfl rest hvalues hgvalues
    have hahead : (!(before values.leaves rest).head?.all Grammar.endsReturn) = true := by
      obtain ⟨l, leaves, heq⟩ := values.leaves_eq
      rw [heq] at hstarts ⊢
      exact congrArg not hstarts
    exact .rule (.oneOf_at 13 rfl (Derives.inOrder_token hword (.inOrder_last
      (.oneOf_at 1 rfl (.inOrder_cons (.ahead hahead) (.inOrder_last hlist))))))

/-- Values assigned to what can be assigned to. -/
theorem assignment_written {first : Access} {more : List (Leaf × Access)}
    (h : (Stat.assignment first more equals values).Fits rest.head?)
    (hg : AllGenuine version (Stat.assignment first more equals values).leaves)
    (hpath : ∀ rest : List Token, first.Fits rest.head? → AllGenuine version first.leaves →
      Written (rule (.access first.kind)) first.leaves rest)
    (hpaths : ∀ rest : List Token, NoneOf [","] rest.head? → CommaAccessesFit rest.head? more →
      AllGenuine version (commaAccessesLeaves more) →
      Written (many 1 (inOrder [sym ",", rule (.access .assignable)])) (commaAccessesLeaves more)
        rest)
    (hexps : values.AreWritten version) :
    Written (rule .stat) (Stat.assignment first more equals values).leaves rest := by
  obtain ⟨-, hfirst, hkind, hmore, hequals, hvalues⟩ := h
  simp only [Stat.leaves, AllGenuine.cons_iff, AllGenuine.append_iff] at hg
  obtain ⟨hgfirst, hgmore, hgequals, hgvalues⟩ := hg
  have hsign := hgequals.isOperator_of_text (by decide) hequals
  have hafter : (before (equals :: values.leaves) rest).head? = some equals.token := rfl
  rw [← hafter, ← Leaf.head?_before, ← Leaf.before_append] at hfirst
  have htarget : Written (rule (.access first.kind)) first.leaves
      (before (commaAccessesLeaves more ++ equals :: values.leaves) rest) :=
    hpath _ hfirst hgfirst
  have htargets : Written (many 1 (inOrder [sym ",", rule (.access .assignable)]))
      (commaAccessesLeaves more) (before (equals :: values.leaves) rest) :=
    hpaths _ (hequals.noneOf (by decide)) hmore hgmore
  have hlist : Written (rule .explist) values.leaves rest := hexps rest hvalues hgvalues
  rw [hkind] at htarget
  exact .rule (.oneOf_at 14 rfl (Written.cons htarget (.cons htargets (.leaf hsign
    (.last hlist)))))

end

/-! ## 7. Expressions and statements -/

mutual

theorem Expr.chained {limit : Int} {rest : List Token} : ∀ e : Expr, e.Fits limit rest.head? →
    AllGenuine version e.leaves → Chained (before e.leaves rest) rest
  | .mk operand operations, h, hg => by
    obtain ⟨hoperand, hoperations⟩ := h
    obtain ⟨hgoperand, hgoperations⟩ := AllGenuine.append_iff.1 hg
    rw [← Leaf.head?_before] at hoperand
    simp only [Expr.leaves, Leaf.before_append]
    exact (Operand.chained operand hoperand hgoperand).append
      (operationsChained operations hoperations hgoperations)

theorem operationsChained {limit : Int} {rest : List Token} : ∀ ops : List (Leaf × Expr),
    OperationsFit limit rest.head? ops → AllGenuine version (operationsLeaves ops) →
      Operations (before (operationsLeaves ops) rest) rest
  | [], _, _ => .refl
  | (operator, right) :: more, h, hg => by
    obtain ⟨⟨powers, hpowers, hright⟩, hmore⟩ := h
    simp only [operationsLeaves, AllGenuine.cons_iff, AllGenuine.append_iff] at hg
    obtain ⟨-, hgright, hgmore⟩ := hg
    have hbinary : (Parser.binaryPowers? operator.token).isSome = true := by
      rw [(continuing?_eq_some_iff.1 hpowers).1]
      rfl
    rw [← Leaf.head?_before] at hright
    simp only [operationsLeaves, Leaf.before_cons, Leaf.before_append]
    exact (Chained.operations hbinary (Expr.chained right hright hgright)).trans
      (operationsChained more hmore hgmore)

theorem Operand.chained {rest : List Token} : ∀ o : Operand, o.Fits rest.head? →
    AllGenuine version o.leaves → Chained (before o.leaves rest) rest
  | .unary operator argument, h, hg =>
    (Expr.chained argument h.2 (AllGenuine.cons_iff.1 hg).2).sign h.1
  | .literal value, h, _ => h.chained (by simp) (.rule (.oneOf_at 0 rfl (.token h)))
  | .table fields, h, hg =>
    h.chained (by simp) (.rule (.oneOf_at 1 rfl (Table.written fields h.2 hg)))
  | .function word body, h, hg => by
    have hbody : Written (rule .body) body.leaves rest :=
      Body.written body h.2 (AllGenuine.cons_iff.1 hg).2
    exact h.chained (by simp) (.rule (.oneOf_at 2 rfl (Written.leaf h.1 (.last hbody))))
  | .access path, h, hg => by
    have hpath : Written (rule (.access path.kind)) path.leaves rest := Access.written path h hg
    refine h.chained (by simp) (.rule ?_)
    cases hkind : path.kind with
    | call => exact .oneOf_at 3 rfl (hkind ▸ hpath)
    | assignable => exact .oneOf_at 4 rfl (hkind ▸ hpath)
    | parenthesized => exact .oneOf_at 5 rfl (hkind ▸ hpath)

theorem Access.written {rest : List Token} : ∀ a : Access, a.Fits rest.head? →
    AllGenuine version a.leaves → Written (rule (.access a.kind)) a.leaves rest
  | .mk (.name l) suffixes, h, hg => by
    have hsuffixes := suffixesWritten .assignable suffixes h.2 (AllGenuine.cons_iff.1 hg).2
    exact .rule (.oneOf_at 0 rfl (Written.leaf (beq_iff_eq.2 h.1) (.last hsuffixes)))
  | .mk (.group opening inner closing) suffixes, h, hg => by
    obtain ⟨⟨hopening, hinner, hclosing⟩, hsuffixes⟩ := h
    simp only [Access.leaves, Root.leaves, List.cons_append, List.append_assoc, List.nil_append,
      AllGenuine.cons_iff, AllGenuine.append_iff] at hg ⊢
    obtain ⟨-, hginner, hgclosing, hgsuffixes⟩ := hg
    have hround := hgclosing.isOperator_of_text (by decide) hclosing
    have hlast := suffixesWritten .parenthesized suffixes hsuffixes hgsuffixes
    have hexp : Written (rule .exp) inner.leaves
        (before (closing :: suffixesLeaves suffixes) rest) :=
      exp_written hinner (Expr.chained inner hinner hginner)
    exact .rule (.oneOf_at 1 rfl (Written.leaf hopening (.cons hexp (.leaf hround (.last hlast)))))

theorem suffixesWritten {rest : List Token} (last : AccessKind) : ∀ xs : List Suffix,
    SuffixesFit rest.head? xs → AllGenuine version (suffixesLeaves xs) →
      Written (rule (.suffixes last ((xs.getLast?.map Suffix.kind).getD last)))
        (suffixesLeaves xs) rest
  | [], h, _ => suffixes_end h
  | x :: xs, h, hg => by
    obtain ⟨hx, hxs⟩ := h
    obtain ⟨hgx, hgxs⟩ := AllGenuine.append_iff.1 hg
    have hmore := suffixesWritten x.kind xs hxs hgxs
    rw [getLast?_kind_cons]
    obtain ⟨hkind, hmember⟩ | ⟨hkind, hargument⟩ :
        (_ ∧ Written (rule .member) x.leaves (before (suffixesLeaves xs) rest)) ∨
          (_ ∧ Written (rule .argument) x.leaves (before (suffixesLeaves xs) rest)) :=
      Suffix.written x hx hgx
    · rw [hkind] at hmore ⊢
      exact .rule (.oneOf_at 0 rfl (Written.cons hmember (.last hmore)))
    · rw [hkind] at hmore ⊢
      exact .rule (.oneOf_at 1 rfl (Written.cons hargument (.last hmore)))

theorem Suffix.written {rest : List Token} : ∀ x : Suffix, x.Fits → AllGenuine version x.leaves →
    (x.kind = .assignable ∧ Written (rule .member) x.leaves rest) ∨
      (x.kind = .call ∧ Written (rule .argument) x.leaves rest)
  | .text string, h, _ =>
    .inr ⟨rfl, .rule (.oneOf_at 2 rfl (.token (beq_iff_eq.2 h)))⟩
  | .member separator name, h, _ => by
    obtain ⟨hdot | hcolon, hname⟩ := h
    · exact .inl ⟨rfl, .rule (.oneOf_at 0 rfl (Written.leaf hdot (.only (beq_iff_eq.2 hname))))⟩
    · exact .inl ⟨rfl, .rule (.oneOf_at 1 rfl (Written.leaf hcolon (.only (beq_iff_eq.2 hname))))⟩
  | .index opening key closing, h, hg => by
    obtain ⟨hopening, hkey, hclosing⟩ := h
    simp only [Suffix.leaves, AllGenuine.cons_iff, AllGenuine.append_iff] at hg
    have hsquare := hg.2.2.1.isOperator_of_text (by decide) hclosing
    have hexp : Written (rule .exp) key.leaves (before [closing] rest) :=
      exp_written hkey (Expr.chained key hkey hg.2.1)
    exact .inl ⟨rfl, .rule (.oneOf_at 2 rfl (Written.leaf hopening (.cons hexp (.only hsquare))))⟩
  | .table fields, h, hg =>
    .inr ⟨rfl, .rule (.oneOf_at 1 rfl (Table.written fields h.2 hg))⟩
  | .call opening none closing, h, hg => by
    obtain ⟨hopening, hclosing⟩ := h
    simp only [Suffix.leaves, AllGenuine.cons_iff] at hg
    have hround := hg.2.1.isOperator_of_text (by decide) hclosing
    refine .inr ⟨rfl, .rule (.oneOf_at 0 rfl (Written.leaf hopening (.skip ?_ (.only hround))))⟩
    refine (Grammar.begins _).not_opens rfl fun x hx => ?_
    obtain rfl := Option.some.inj hx
    exact startsExpr_symbol hround (by decide)
  | .call opening (some arguments) closing, h, hg => by
    obtain ⟨hopening, -, harguments, hclosing⟩ := h
    simp only [Suffix.leaves, AllGenuine.cons_iff, AllGenuine.append_iff] at hg
    have hround := hg.2.2.1.isOperator_of_text (by decide) hclosing
    have hlist : Written (rule .explist) arguments.leaves (before [closing] rest) :=
      Exprs.written arguments harguments hg.2.1
    exact .inr ⟨rfl, .rule (.oneOf_at 0 rfl
      (Written.leaf hopening (.cons (.left hlist) (.only hround))))⟩

theorem Exprs.written {rest : List Token} : ∀ es : Exprs, es.Fits rest.head? →
    AllGenuine version es.leaves → Written (rule .explist) es.leaves rest
  | .mk first more, h, hg => by
    obtain ⟨hfirst, hmore⟩ := h
    obtain ⟨hgfirst, hgmore⟩ := AllGenuine.append_iff.1 hg
    rw [← Leaf.head?_before] at hfirst
    have hexp : Written (rule .exp) first.leaves (before (commaExprsLeaves more) rest) :=
      exp_written hfirst (Expr.chained first hfirst hgfirst)
    exact .rule (Written.cons hexp (.last (commaExprsWritten more hmore hgmore)))

theorem commaExprsWritten {rest : List Token} : ∀ more : List (Leaf × Expr),
    CommaExprsFit rest.head? more → AllGenuine version (commaExprsLeaves more) →
      Written (many 1 (inOrder [sym ",", rule .exp])) (commaExprsLeaves more) rest
  | [], h, _ => .done (not_opens_sym h)
  | (comma, e) :: more, h, hg => by
    obtain ⟨hcomma, he, hmore⟩ := h
    simp only [commaExprsLeaves, AllGenuine.cons_iff, AllGenuine.append_iff] at hg
    rw [← Leaf.head?_before] at he
    have hround : Written (inOrder [sym ",", rule .exp]) (comma :: e.leaves)
        (before (commaExprsLeaves more) rest) :=
      .leaf (hg.1.isOperator_of_text (by decide) hcomma)
        (.last (exp_written he (Expr.chained e he hg.2.1)))
    exact hround.more (commaExprsWritten more hmore hg.2.2)

theorem Table.written {rest : List Token} : ∀ t : Table, t.Fits → AllGenuine version t.leaves →
    Written (rule .table) t.leaves rest
  | .empty opening closing, h, hg => by
    obtain ⟨hopening, hclosing⟩ := h
    simp only [Table.leaves, AllGenuine.cons_iff] at hg
    have hbrace := hg.1.isOperator_of_text (by decide) hopening
    have hend := hg.2.1.isOperator_of_text (by decide) hclosing
    refine .rule (Written.leaf hbrace (.skip ?_ (.only hend)))
    refine (Grammar.begins _).not_opens rfl fun x hx => ?_
    obtain rfl := Option.some.inj hx
    simp [first_field_brace hend, Grammar.empty]
  | .fields opening first more trailing closing, h, hg => by
    obtain ⟨hopening, -, hfirst, hmore, htrailing, hclosing⟩ := h
    simp only [Table.leaves, AllGenuine.cons_iff, AllGenuine.append_iff] at hg
    obtain ⟨hgopening, hgfirst, hgmore, hgtrailing, hgclosing, -⟩ := hg
    have hbrace := hgopening.isOperator_of_text (by decide) hopening
    have hend := hgclosing.isOperator_of_text (by decide) hclosing
    have hafter : (before trailing.toList (closing.token :: rest)).head? =
        Leaf.front trailing.toList (some closing.token) := Leaf.head?_before ..
    rw [← hafter] at hmore
    rw [Leaf.front_append, ← hafter, ← Leaf.head?_before, ← Leaf.before_append] at hfirst
    have hfield : Written (rule .field) first.leaves
        (before (fieldsLeaves more ++ trailing.toList) (closing.token :: rest)) :=
      Field.written first hfirst hgfirst
    have hfields := fieldsWritten (not_opens_field hend) more hmore hgmore
    have hlast : Written (maybe 1 (oneOf [sym ",", sym ";"])) trailing.toList
        (before [closing] rest) := trailing_written htrailing hgtrailing hend
    have htable : Written (rule .table) (opening ::
        ((first.leaves ++ (fieldsLeaves more ++ trailing.toList)) ++ [closing])) rest :=
      .rule (Written.leaf hbrace (.cons (.left (Written.cons hfield (.cons hfields (.last hlast))))
        (.only hend)))
    rwa [List.append_assoc, List.append_assoc] at htable

theorem fieldsWritten {rest : List Token}
    (hend : ¬ Opens (rules guardedValues) 2
      (inOrder [oneOf [sym ",", sym ";"], rule .field]) rest) :
    ∀ more : List (Leaf × Field), FieldsFit rest.head? more →
      AllGenuine version (fieldsLeaves more) →
      Written (many 2 (inOrder [oneOf [sym ",", sym ";"], rule .field])) (fieldsLeaves more) rest
  | [], _, _ => .done hend
  | (separator, f) :: more, h, hg => by
    obtain ⟨hseparator, -, hf, hmore⟩ := h
    simp only [fieldsLeaves, AllGenuine.cons_iff, AllGenuine.append_iff] at hg
    rw [← Leaf.head?_before] at hf
    have hfield : Written (rule .field) f.leaves (before (fieldsLeaves more) rest) :=
      Field.written f hf hg.2.1
    have hround : Written (inOrder [oneOf [sym ",", sym ";"], rule .field]) (separator :: f.leaves)
        (before (fieldsLeaves more) rest) :=
      Derives.inOrder_cons (separator_written hseparator hg.1) (Written.last hfield)
    exact hround.more (fieldsWritten hend more hmore hg.2.2)

theorem Field.written {rest : List Token} : ∀ f : Field, f.Fits rest.head? →
    AllGenuine version f.leaves → Written (rule .field) f.leaves rest
  | .keyed opening key closing equals value, h, hg => by
    obtain ⟨hopening, hkey, hclosing, hequals, hvalue⟩ := h
    simp only [Field.leaves, AllGenuine.cons_iff, AllGenuine.append_iff] at hg
    obtain ⟨-, hgkey, hgclosing, hgequals, hgvalue⟩ := hg
    have hsquare := hgclosing.isOperator_of_text (by decide) hclosing
    have hsign := hgequals.isOperator_of_text (by decide) hequals
    have hexp : Written (rule .exp) key.leaves (before (closing :: equals :: value.leaves) rest) :=
      exp_written hkey (Expr.chained key hkey hgkey)
    exact .rule (.oneOf_at 0 rfl (Written.leaf hopening (.cons hexp (.leaf hsquare (.leaf hsign
      (.last (exp_written hvalue (Expr.chained value hvalue hgvalue))))))))
  | .named name equals value, h, hg => by
    obtain ⟨hname, hequals, hvalue⟩ := h
    simp only [Field.leaves, AllGenuine.cons_iff] at hg
    have hsign := hg.2.1.isOperator_of_text (by decide) hequals
    exact .rule (.oneOf_at 1 rfl (Written.leaf (beq_iff_eq.2 hname) (.leaf hsign
      (.last (exp_written hvalue (Expr.chained value hvalue hg.2.2))))))
  | .positional value, h, hg =>
    .rule (.oneOf_at 2 rfl (exp_written h.1 (Expr.chained value h.1 hg)))

theorem Body.written {rest : List Token} : ∀ b : Body, b.Fits → AllGenuine version b.leaves →
    Written (rule .body) b.leaves rest
  | .mk parameters block closing, h, hg => by
    obtain ⟨hparameters, hblock, hclosing⟩ := h
    simp only [Body.leaves, AllGenuine.append_iff, AllGenuine.cons_iff] at hg
    have hend := hg.2.2.1.isKeyword_of_text (by decide) hclosing
    have hstatements : Written (rule .block) block.leaves (before [closing] rest) :=
      Block.written block hblock hg.2.1
    exact .rule (Written.cons (Parameters.written hparameters hg.1)
      (.cons hstatements (.only hend)))

theorem Block.written {rest : List Token} : ∀ b : Block, b.Fits rest.head? →
    AllGenuine version b.leaves → Written (rule .block) b.leaves rest
  | .mk statements, h, hg => .rule (statementsWritten statements h hg)

theorem statementsWritten {rest : List Token} : ∀ xs : List Stat, StatementsFit rest.head? xs →
    AllGenuine version (statementsLeaves xs) →
      Written (many 1 (rule .stat)) (statementsLeaves xs) rest
  | [], h, _ => .done (not_opens_stat h)
  | x :: xs, h, hg => by
    obtain ⟨-, hx, hxs⟩ := h
    obtain ⟨hgx, hgxs⟩ := AllGenuine.append_iff.1 hg
    rw [← Leaf.head?_before] at hx
    have hstat : Written (rule .stat) x.leaves (before (statementsLeaves xs) rest) :=
      Stat.written x hx hgx
    exact hstat.more (statementsWritten xs hxs hgxs)

theorem Stat.written {rest : List Token} : ∀ x : Stat, x.Fits rest.head? →
    AllGenuine version x.leaves → Written (rule .stat) x.leaves rest
  | .breakLoop word, h, hg => by
    have hword := h.isKeyword (AllGenuine.cons_iff.1 hg).1 (by decide)
    exact .rule (.oneOf_at 1 rfl (.token hword))
  | .goto word target, h, hg => by
    have hword := h.1.isKeyword (AllGenuine.cons_iff.1 hg).1 (by decide)
    exact .rule (.oneOf_at 2 rfl (Written.leaf hword (.only (beq_iff_eq.2 h.2))))
  | .label opening name closing, h, hg => by
    obtain ⟨hopening, hname, hclosing⟩ := h
    simp only [Stat.leaves, AllGenuine.cons_iff] at hg
    have hfirst := hg.1.isOperator_of_text (by decide) hopening.saying
    have hlast := hg.2.2.1.isOperator_of_text (by decide) hclosing
    exact .rule (.oneOf_at 3 rfl (Written.leaf hfirst (.leaf (beq_iff_eq.2 hname) (.only hlast))))
  | .empty semicolon, h, hg => by
    have hsymbol := (AllGenuine.cons_iff.1 hg).1.isOperator_of_text (by decide) h.saying
    exact .rule (.oneOf_at 0 rfl (.token hsymbol))
  | .doBlock word block closing, h, hg => by
    obtain ⟨hopens, hblock, hclosing⟩ := h
    simp only [Stat.leaves, AllGenuine.cons_iff, AllGenuine.append_iff] at hg
    have hword := hopens.isKeyword hg.1 (by decide)
    have hend := hg.2.2.1.isKeyword_of_text (by decide) hclosing
    have hstatements : Written (rule .block) block.leaves (before [closing] rest) :=
      Block.written block hblock hg.2.1
    exact .rule (.oneOf_at 4 rfl (Written.leaf hword (.cons hstatements (.only hend))))
  | .whileLoop word condition opening block closing, h, hg => by
    obtain ⟨hopens, hcondition, hopening, hblock, hclosing⟩ := h
    simp only [Stat.leaves, AllGenuine.cons_iff, AllGenuine.append_iff] at hg
    obtain ⟨hgword, hgcondition, hgopening, hgblock, hgclosing, -⟩ := hg
    have hword := hopens.isKeyword hgword (by decide)
    have hdo := hgopening.isKeyword_of_text (by decide) hopening
    have hend := hgclosing.isKeyword_of_text (by decide) hclosing
    have hexp : Written (rule .exp) condition.leaves
        (before (opening :: (block.leaves ++ [closing])) rest) :=
      exp_written hcondition (Expr.chained condition hcondition hgcondition)
    have hstatements : Written (rule .block) block.leaves (before [closing] rest) :=
      Block.written block hblock hgblock
    exact .rule (.oneOf_at 5 rfl (Written.leaf hword (.cons hexp (.leaf hdo
      (.cons hstatements (.only hend))))))
  | .repeatLoop word block closing condition, h, hg => by
    obtain ⟨hopens, hblock, hclosing, hcondition⟩ := h
    simp only [Stat.leaves, AllGenuine.cons_iff, AllGenuine.append_iff] at hg
    obtain ⟨hgword, hgblock, hgclosing, hgcondition⟩ := hg
    have hword := hopens.isKeyword hgword (by decide)
    have huntil := hgclosing.isKeyword_of_text (by decide) hclosing
    have hstatements : Written (rule .block) block.leaves
        (before (closing :: condition.leaves) rest) := Block.written block hblock hgblock
    exact .rule (.oneOf_at 6 rfl (Written.leaf hword (.cons hstatements (.leaf huntil
      (.last (exp_written hcondition (Expr.chained condition hcondition hgcondition)))))))
  | .conditional (.mk start condition opening block) more otherwise closing, h, hg =>
    conditional_written h hg (fun _ => Expr.chained condition) (fun _ => Block.written block)
      (fun _ hend => branchesWritten hend more) (fun _ hend => otherwiseWritten hend otherwise)
  | .countingLoop word name equals start comma stop step opening block closing, h, hg =>
    countingLoop_written h hg (fun _ => Expr.chained start) (fun _ => Expr.chained stop)
      (fun _ hend => stepWritten hend step) (fun _ => Block.written block)
  | .iteration word name more between values opening block closing, h, hg =>
    iteration_written h hg (fun _ => Exprs.written values) (fun _ => Block.written block)
  | .function word name path method body, h, hg => function_written h hg (Body.written body)
  | .localFunction word function name body, h, hg => by
    obtain ⟨hopens, hfunction, hname, hbody⟩ := h
    simp only [Stat.leaves, AllGenuine.cons_iff] at hg
    have hword := hopens.isKeyword hg.1 (by decide)
    have hsecond := hg.2.1.isKeyword_of_text (by decide) hfunction
    have hlast : Written (rule .body) body.leaves rest := Body.written body hbody hg.2.2.2
    exact .rule (.oneOf_at 11 rfl (Written.leaf hword (.leaf hsecond (.leaf (beq_iff_eq.2 hname)
      (.last hlast)))))
  | .localNames word first more none, h, hg => declaration_written h hg nofun
  | .localNames word first more (some (equals, values)), h, hg =>
    declaration_written h hg fun _ heq => by
      cases heq
      exact fun _ => Exprs.written values
  | .result word none, h, hg => result_written h hg nofun
  | .result word (some values), h, hg =>
    result_written h hg fun _ heq => by
      cases heq
      exact fun _ => Exprs.written values
  | .assignment first more equals values, h, hg =>
    assignment_written h hg (fun _ => Access.written first)
      (fun _ hend => commaAccessesWritten hend more) (fun _ => Exprs.written values)
  | .call callee, h, hg => by
    obtain ⟨-, hcallee, hkind, -⟩ := h
    have hpath : Written (rule (.access callee.kind)) callee.leaves rest :=
      Access.written callee hcallee hg
    rw [hkind] at hpath
    exact .rule (.oneOf_at 15 rfl hpath)

theorem commaAccessesWritten {rest : List Token} (hend : NoneOf [","] rest.head?) :
    ∀ more : List (Leaf × Access), CommaAccessesFit rest.head? more →
      AllGenuine version (commaAccessesLeaves more) →
      Written (many 1 (inOrder [sym ",", rule (.access .assignable)]))
        (commaAccessesLeaves more) rest
  | [], _, _ => .done (not_opens_sym hend)
  | (comma, a) :: more, h, hg => by
    obtain ⟨hcomma, ha, hkind, hmore⟩ := h
    simp only [commaAccessesLeaves, AllGenuine.cons_iff, AllGenuine.append_iff] at hg
    rw [← Leaf.head?_before] at ha
    have hpath : Written (rule (.access a.kind)) a.leaves
        (before (commaAccessesLeaves more) rest) :=
      Access.written a ha hg.2.1
    rw [hkind] at hpath
    have hround : Written (inOrder [sym ",", rule (.access .assignable)]) (comma :: a.leaves)
        (before (commaAccessesLeaves more) rest) :=
      .leaf (hg.1.isOperator_of_text (by decide) hcomma) (.last hpath)
    exact hround.more (commaAccessesWritten hend more hmore hg.2.2)

theorem branchesWritten {rest : List Token} (hend : NoneOf ["elseif"] rest.head?) :
    ∀ more : List Branch, BranchesFit rest.head? more → AllGenuine version (branchesLeaves more) →
      Written (many 1 (inOrder [word "elseif", rule .exp, word "then", rule .block]))
        (branchesLeaves more) rest
  | [], _, _ => .done (not_opens_word hend)
  | .mk start condition opening block :: more, h, hg => by
    obtain ⟨hword, ⟨hcondition, hopening, hblock⟩, hmore⟩ := h
    simp only [branchesLeaves, Branch.leaves, List.cons_append, List.append_assoc,
      AllGenuine.cons_iff, AllGenuine.append_iff] at hg
    obtain ⟨hgword, hgcondition, hgopening, hgblock, hgmore⟩ := hg
    have helseif := hgword.isKeyword_of_text (by decide) (hword start rfl)
    have hthen := hgopening.isKeyword_of_text (by decide) hopening
    rw [← Leaf.head?_before] at hblock
    have hexp : Written (rule .exp) condition.leaves
        (before (opening :: block.leaves) (before (branchesLeaves more) rest)) :=
      exp_written hcondition (Expr.chained condition hcondition hgcondition)
    have hstatements : Written (rule .block) block.leaves (before (branchesLeaves more) rest) :=
      Block.written block hblock hgblock
    have hround : Written (inOrder [word "elseif", rule .exp, word "then", rule .block])
        (Branch.leaves (.mk start condition opening block)) (before (branchesLeaves more) rest) :=
      .leaf helseif (.cons hexp (.leaf hthen (.last hstatements)))
    exact hround.more (branchesWritten hend more hmore hgmore)

theorem otherwiseWritten {rest : List Token} (hend : NoneOf ["else"] rest.head?) :
    ∀ otherwise : Option (Leaf × Block), OtherwiseFits rest.head? otherwise →
      AllGenuine version (otherwiseLeaves otherwise) →
      Written (maybe 1 (inOrder [word "else", rule .block])) (otherwiseLeaves otherwise) rest
  | none, _, _ => .right (.absent (not_opens_word hend))
  | some (start, block), h, hg => by
    obtain ⟨hgword, hgblock⟩ := AllGenuine.cons_iff.1 hg
    have helse := hgword.isKeyword_of_text (by decide) h.1
    have hstatements : Written (rule .block) block.leaves rest := Block.written block h.2 hgblock
    exact .left (Written.leaf helse (.last hstatements))

theorem stepWritten {rest : List Token} (hend : NoneOf [","] rest.head?) :
    ∀ step : Option (Leaf × Expr), StepFits rest.head? step → AllGenuine version (stepLeaves step) →
      Written (maybe 1 (inOrder [sym ",", rule .exp])) (stepLeaves step) rest
  | none, _, _ => .right (.absent (not_opens_sym hend))
  | some (comma, e), h, hg => by
    obtain ⟨hgcomma, hge⟩ := AllGenuine.cons_iff.1 hg
    have hsymbol := hgcomma.isOperator_of_text (by decide) h.1
    exact .left (Written.leaf hsymbol (.last (exp_written h.2 (Expr.chained e h.2 hge))))

end

end LuaLayout
