/-
LuaLayout.Proofs.Parser.Expressions — expressions are read exactly.

Each parser for a part of an expression succeeds on some leaves exactly when
they begin with the leaves of a tree that fits, and then it gives that tree.
So reading loses nothing, and a tree that fits is read back from its leaves.

The two rules that all parsers are built on are assumed to be exact for lists
up to a length. A parser that takes a leaf before it uses them is then exact for
lists that are one longer, which is the step of the induction over the depth.
-/
import LuaLayout.Proofs.Parser.Steps
import LuaLayout.Proofs.Tree.Fits

open LuaLayout.Parser

namespace LuaLayout

/-! ## 1. Exact rules -/

/-- The rules read expressions and blocks exactly from lists up to a length. -/
structure Rules.Exact (r : Rules) (length : Nat) : Prop where
  expression : ∀ {limit s e t}, s.length ≤ length →
    (r.expression limit s = .ok (e, t) ↔ s = e.leaves ++ t ∧ e.Fits limit (tokenAt 0 t))
  block : ∀ {s b t}, s.length ≤ length →
    (r.block s = .ok (b, t) ↔ s = b.leaves ++ t ∧ b.Fits (tokenAt 0 t))

namespace Token

/-- The token begins an expression. -/
def startsExpr (t : Token) : Bool :=
  isUnary t || isLiteral t || t.isOperator "\x7b" || t.isKeyword "function" ||
    t.isOperator "(" || t.kind == .name

/-- No expression begins with an opening square bracket. -/
theorem not_index_of_startsExpr {t : Token} (h : t.startsExpr = true) :
    t.isOperator "[" = false := by
  cases hi : t.isOperator "[" with
  | false => rfl
  | true =>
    obtain ⟨hk, ht⟩ := isOperator_iff.1 hi
    simp [startsExpr, isUnary, isLiteral, isOperator, isKeyword, hk, ht, Powers.unaryOperators] at h

end Token

/-! ## 2. What a part that fits begins with -/

theorem Access.Fits.starts {a : Access} {next : Option Token} (h : a.Fits next) :
    a.head.token.isOperator "(" = true ∨ a.head.token.kind = .name := by
  obtain ⟨root, suffixes⟩ := a
  cases root with
  | name name => exact .inr h.1
  | group opening inner closing => exact .inl h.1.1

theorem Operand.Fits.starts {o : Operand} {next : Option Token} (h : o.Fits next) :
    o.head.token.startsExpr = true := by
  cases o with
  | unary operator argument => simp [Operand.head, Token.startsExpr, h.1]
  | literal value =>
    have hl : isLiteral value.token = true := h
    simp [Operand.head, Token.startsExpr, hl]
  | table fields =>
    have hs : fields.head.token.isOperator "\x7b" = true := h.1
    simp [Operand.head, Token.startsExpr, hs]
  | function word body => simp [Operand.head, Token.startsExpr, h.1]
  | access path =>
    rcases Access.Fits.starts h with ho | hn
    · simp [Operand.head, Token.startsExpr, ho]
    · simp [Operand.head, Token.startsExpr, hn]

/-- Only an operand with a unary operator begins with one. -/
theorem Operand.Fits.eq_unary {o : Operand} {next : Option Token} (h : o.Fits next)
    (hunary : isUnary o.head.token = true) :
    ∃ operator argument, o = .unary operator argument := by
  have hkind : o.head.token.kind = .operator := by
    simp only [isUnary, Bool.and_eq_true, beq_iff_eq] at hunary
    exact hunary.1
  cases o with
  | unary operator argument => exact ⟨operator, argument, rfl⟩
  | literal value =>
    have hliteral : isLiteral value.token = true := h
    have hvalue : value.token.kind = .operator := hkind
    simp [isLiteral, hvalue] at hliteral
  | table fields =>
    have htext : fields.head.token.text = "\x7b" := (Token.isOperator_iff.1 h.1).2
    simp [isUnary, Operand.head, htext, Powers.unaryOperators] at hunary
  | function word body => exact absurd (hkind.symm.trans (Token.isKeyword_iff.1 h.1).1) (by decide)
  | access path =>
    rcases Access.Fits.starts h with hopen | hname
    · have htext : path.head.token.text = "(" := (Token.isOperator_iff.1 hopen).2
      simp [isUnary, Operand.head, htext, Powers.unaryOperators] at hunary
    · exact absurd (hkind.symm.trans hname) (by decide)

/-- Only a literal begins with a number. -/
theorem Operand.Fits.eq_literal {o : Operand} {next : Option Token} (h : o.Fits next)
    (hnumber : o.head.token.kind = .number) : ∃ value, o = .literal value := by
  cases o with
  | unary operator argument =>
    have hunary := h.1
    simp only [isUnary, Bool.and_eq_true, beq_iff_eq] at hunary
    exact absurd (hnumber.symm.trans hunary.1) (by decide)
  | literal value => exact ⟨value, rfl⟩
  | table fields => exact absurd (hnumber.symm.trans (Token.isOperator_iff.1 h.1).1) (by decide)
  | function word body =>
    exact absurd (hnumber.symm.trans (Token.isKeyword_iff.1 h.1).1) (by decide)
  | access path =>
    rcases Access.Fits.starts h with hopening | hname
    · exact absurd (hnumber.symm.trans (Token.isOperator_iff.1 hopening).1) (by decide)
    · exact absurd (hnumber.symm.trans hname) (by decide)

/-- Only an access begins with a name. -/
theorem Operand.Fits.eq_access {o : Operand} {next : Option Token} (h : o.Fits next)
    (hname : o.head.IsName) : ∃ name suffixes, o = .access (.mk (.name name) suffixes) := by
  have hkind : o.head.token.kind = .name := hname
  cases o with
  | unary operator argument =>
    have hunary := h.1
    simp only [isUnary, Bool.and_eq_true, beq_iff_eq] at hunary
    exact absurd (hkind.symm.trans hunary.1) (by decide)
  | literal value =>
    have hliteral : isLiteral value.token = true := h
    have hvalue : value.token.kind = .name := hkind
    simp [isLiteral, hvalue] at hliteral
  | table fields => exact absurd (hkind.symm.trans (Token.isOperator_iff.1 h.1).1) (by decide)
  | function word body => exact absurd (hkind.symm.trans (Token.isKeyword_iff.1 h.1).1) (by decide)
  | access path =>
    obtain ⟨root, suffixes⟩ := path
    cases root with
    | group opening inner closing =>
      exact absurd (hkind.symm.trans (Token.isOperator_iff.1 h.1.1).1) (by decide)
    | name name => exact ⟨name, suffixes, rfl⟩

/-- An expression that fits begins with a token that begins expressions. -/
theorem Expr.Fits.starts {e : Expr} {limit : Int} {next : Option Token} (h : e.Fits limit next) :
    e.head.token.startsExpr = true := by
  obtain ⟨operand, operations⟩ := e
  exact Operand.Fits.starts h.1

theorem noneOf_singleton {text : String} {next : Option Token} :
    NoneOf [text] next ↔ ∀ t ∈ next, t.text ≠ text := by
  simp [NoneOf]

/-! ## 3. Items after separators -/

namespace Parser

variable {α : Type} {s t : List Leaf}

/-- Pairs of a separator and an item, each of which fits before what follows. -/
def PairsFit (separator : String) (leaves : α → List Leaf) (good : α → Option Token → Prop)
    (next : Option Token) : List (Leaf × α) → Prop
  | [] => True
  | (l, a) :: rest =>
    l.Says separator ∧ good a (Leaf.front (Leaf.ofPairs leaves rest) next) ∧
      PairsFit separator leaves good next rest

/-- A leaf with the text and an item after it, where the text is ahead. -/
theorem ifSeesThen_eq_some_iff {text : String} {item : Parser α} {l : Leaf} {a : α} :
    ifSees text (nextThen item) s = .ok (some (l, a), t) ↔
      ∃ u, s = l :: u ∧ l.Says text ∧ item u = .ok (a, t) := by
  rw [ifSees_eq_some_iff, nextThen_eq_ok_iff]
  constructor
  · rintro ⟨⟨x, hx, htext⟩, u, rfl, hu⟩
    rw [tokenAt_zero_cons, Option.mem_some_iff] at hx
    subst hx
    exact ⟨u, rfl, htext, hu⟩
  · rintro ⟨u, rfl, htext, hu⟩
    exact ⟨⟨l.token, rfl, htext⟩, u, rfl, hu⟩

section

variable {item : Parser α} (leaves : α → List Leaf) (good : α → Option Token → Prop) (length : Nat)
  (hitem : ∀ {s a t}, s.length ≤ length →
    (item s = .ok (a, t) ↔ s = leaves a ++ t ∧ good a (tokenAt 0 t)))
  (hs : s.length ≤ length + 1)

include hitem hs

/-- A leaf with the text and an item after it, or nothing where no such leaf is ahead,
are read exactly where the item is. -/
theorem ifSeesThen_eq_ok_iff {text : String} {pair : Option (Leaf × α)} :
    ifSees text (nextThen item) s = .ok (pair, t) ↔
      s = Leaf.ofPair leaves pair ++ t ∧
        (∀ p ∈ pair, p.1.Says text ∧ good p.2 (tokenAt 0 t)) ∧
        (pair = none → NoneOf [text] (tokenAt 0 t)) := by
  cases pair with
  | none =>
    simp only [ifSees_eq_none_iff, Leaf.ofPair, List.nil_append, Option.not_mem_none, false_imp_iff,
      implies_true, true_and, noneOf_singleton, forall_const]
    exact and_congr_right fun h => by rw [h]
  | some p =>
    obtain ⟨l, a⟩ := p
    rw [ifSeesThen_eq_some_iff]
    constructor
    · rintro ⟨u, rfl, htext, hu⟩
      simp only [List.length_cons, Nat.add_le_add_iff_right] at hs
      obtain ⟨rfl, hgood⟩ := (hitem hs).1 hu
      exact ⟨rfl, by simpa using ⟨htext, hgood⟩, by simp⟩
    · rintro ⟨rfl, hpair, -⟩
      obtain ⟨htext, hgood⟩ := hpair (l, a) rfl
      simp only [Leaf.ofPair, List.cons_append, List.length_cons, Nat.add_le_add_iff_right] at hs
      exact ⟨_, rfl, htext, (hitem hs).2 ⟨rfl, hgood⟩⟩

/-- Items after separators are read exactly where each item is. -/
theorem moreAfter_eq_ok_iff {separator : String} {more : List (Leaf × α)} :
    moreAfter separator item s = .ok (more, t) ↔
      s = Leaf.ofPairs leaves more ++ t ∧
        PairsFit separator leaves good (tokenAt 0 t) more ∧ NoneOf [separator] (tokenAt 0 t) := by
  rw [moreAfter]
  refine many_eq_ok_iff_of_items (fun p => p.1 :: leaves p.2)
    (fun p u => p.1.Says separator ∧ good p.2 (tokenAt 0 u))
    (fun u => NoneOf [separator] (tokenAt 0 u)) (Leaf.ofPairs leaves)
    (fun u more => PairsFit separator leaves good (tokenAt 0 u) more ∧
      NoneOf [separator] (tokenAt 0 u)) (fun s p t hs => ?_) (fun _ _ => ?_)
    (fun _ => List.cons_ne_nil _ _) rfl (fun _ _ => rfl) (fun _ => ?_) (fun _ _ _ => ?_) hs
  · rw [ifSeesThen_eq_ok_iff leaves good length hitem hs]
    simp [Leaf.ofPair]
  · rw [ifSees_eq_none_iff, noneOf_singleton]
  · simp only [PairsFit, true_and]
  · simp only [PairsFit, tokenAt_zero_append, and_assoc]

end

end Parser

/-! The lists of pairs inside trees are such pairs. -/

theorem commaExprsLeaves_eq (more : List (Leaf × Expr)) :
    commaExprsLeaves more = Leaf.ofPairs Expr.leaves more := by
  induction more with
  | nil => rfl
  | cons p rest ih => simp [commaExprsLeaves, Leaf.ofPairs, ih]

theorem commaExprsFit_iff (next : Option Token) (more : List (Leaf × Expr)) :
    CommaExprsFit next more ↔
      PairsFit "," Expr.leaves (fun e => e.Fits 0) next more ∧ NoneOf [","] next := by
  induction more with
  | nil => simp [CommaExprsFit, PairsFit]
  | cons p rest ih =>
    simp only [CommaExprsFit, PairsFit, commaExprsLeaves_eq, ih, and_assoc]

theorem commaAccessesLeaves_eq (more : List (Leaf × Access)) :
    commaAccessesLeaves more = Leaf.ofPairs Access.leaves more := by
  induction more with
  | nil => rfl
  | cons p rest ih => simp [commaAccessesLeaves, Leaf.ofPairs, ih]

theorem commaAccessesFit_iff (next : Option Token) (more : List (Leaf × Access)) :
    CommaAccessesFit next more ↔
      PairsFit "," Access.leaves (fun a next => a.Fits next ∧ a.kind = .assignable) next more := by
  induction more with
  | nil => simp [CommaAccessesFit, PairsFit]
  | cons p rest ih =>
    simp only [CommaAccessesFit, PairsFit, commaAccessesLeaves_eq, ih, and_assoc]

theorem namesFit_iff (separator : String) (next : Option Token) (more : List (Leaf × Leaf)) :
    Leaf.NamesFit separator more ↔
      PairsFit separator Leaf.alone (fun l _ => l.IsName) next more := by
  induction more with
  | nil => simp [Leaf.NamesFit, PairsFit]
  | cons p rest ih =>
    simp only [Leaf.NamesFit, PairsFit, List.forall_mem_cons, and_assoc] at ih ⊢
    rw [ih]

theorem localNamesFit_iff (next : Option Token) (more : List (Leaf × LocalName)) :
    LocalName.MoreFit next more ↔
      PairsFit "," LocalName.leaves (fun n next => n.Fits next) next more ∧
        NoneOf [","] next := by
  induction more with
  | nil => simp [LocalName.MoreFit, PairsFit]
  | cons p rest ih => simp only [LocalName.MoreFit, PairsFit, ih, and_assoc]

/-! ## 4. Expressions -/

namespace Parser

variable {r : Rules} {n : Nat} {s t : List Leaf}

theorem expressions_eq_ok_iff (hr : r.Exact n) (hs : s.length ≤ n) {es : Exprs} :
    expressions r s = .ok (es, t) ↔ s = es.leaves ++ t ∧ es.Fits (tokenAt 0 t) := by
  obtain ⟨first, more⟩ := es
  simp only [expressions, bind_eq_ok_iff, pure_eq_ok_iff, Exprs.leaves, Exprs.Fits,
    commaExprsFit_iff, commaExprsLeaves_eq, List.append_assoc]
  have hmore : ∀ {u more v}, u.length ≤ n + 1 →
      (moreAfter "," (r.expression 0) u = .ok (more, v) ↔ _) := fun hu =>
    moreAfter_eq_ok_iff Expr.leaves (fun e => e.Fits 0) n (fun h => hr.expression h) hu
  constructor
  · rintro ⟨e, u, he, more', v, hm, heq, rfl⟩
    cases heq
    obtain ⟨rfl, hfit⟩ := (hr.expression hs).1 he
    simp only [List.length_append] at hs
    obtain ⟨rfl, hall, hend⟩ := (hmore (by omega)).1 hm
    rw [tokenAt_zero_append] at hfit
    exact ⟨rfl, hfit, hall, hend⟩
  · rintro ⟨rfl, hfit, hall, hend⟩
    refine ⟨first, _, (hr.expression hs).2 ⟨rfl, ?_⟩, more, t, (hmore ?_).2 ⟨rfl, hall, hend⟩,
      rfl, rfl⟩
    · rwa [tokenAt_zero_append]
    · simp only [List.length_append] at hs ⊢
      omega

theorem operation_eq_some_iff (hr : r.Exact n) (hs : s.length ≤ n + 1) {limit : Int} {l : Leaf}
    {e : Expr} :
    operation r limit s = .ok (some (l, e), t) ↔
      s = l :: (e.leaves ++ t) ∧ ∃ powers, continuing? limit l.token = some powers ∧
        e.Fits powers.right (tokenAt 0 t) := by
  rw [operation, current_bind]
  constructor
  · intro h
    cases hp : (tokenAt 0 s).bind (continuing? limit) with
    | none => simp [hp, pure_eq_ok_iff] at h
    | some powers =>
      rw [hp] at h
      obtain ⟨⟨l', e'⟩, hpair, heq⟩ := map_eq_ok_iff.1 h
      cases heq
      obtain ⟨u, rfl, hu⟩ := nextThen_eq_ok_iff.1 hpair
      simp only [List.length_cons, Nat.add_le_add_iff_right] at hs
      obtain ⟨rfl, hfit⟩ := (hr.expression hs).1 hu
      exact ⟨rfl, powers, hp, hfit⟩
  · rintro ⟨rfl, powers, hp, hfit⟩
    simp only [List.length_cons, Nat.add_le_add_iff_right] at hs
    simp only [tokenAt_zero_cons, Option.bind_some, hp]
    exact map_eq_ok_iff.2 ⟨(l, e), nextThen_eq_ok_iff.2 ⟨_, rfl, (hr.expression hs).2 ⟨rfl, hfit⟩⟩,
      rfl⟩

theorem operation_eq_none_iff {limit : Int} :
    operation r limit s = .ok (none, t) ↔ s = t ∧ EndsExpr limit (tokenAt 0 s) := by
  rw [operation, current_bind, EndsExpr]
  cases h : (tokenAt 0 s).bind (continuing? limit) with
  | none => simp [pure_eq_ok_iff]
  | some powers => simp [map_eq_ok_iff]

/-- Operators are read up to the first one that does not go on. -/
theorem operations_eq_ok_iff (hr : r.Exact n) (hs : s.length ≤ n + 1) {limit : Int}
    {ops : List (Leaf × Expr)} :
    many (operation r limit) s = .ok (ops, t) ↔
      s = operationsLeaves ops ++ t ∧ OperationsFit limit (tokenAt 0 t) ops := by
  refine many_eq_ok_iff_of_items (fun p => p.1 :: p.2.leaves)
    (fun p u => ∃ powers, continuing? limit p.1.token = some powers ∧
      p.2.Fits powers.right (tokenAt 0 u))
    (fun u => EndsExpr limit (tokenAt 0 u)) operationsLeaves
    (fun u => OperationsFit limit (tokenAt 0 u)) (fun _ _ _ h => operation_eq_some_iff hr h)
    (fun _ _ => operation_eq_none_iff) (fun _ => List.cons_ne_nil _ _) rfl (fun _ _ => rfl)
    (fun _ => ?_) (fun _ _ _ => ?_) hs
  · simp only [OperationsFit]
  · simp only [OperationsFit, tokenAt_zero_append]

/-! ## 5. Tables -/

/-- The token after the first of an expression lacks the text. -/
theorem hasTextAt_one_append {text : String} {e : Expr} :
    hasTextAt 1 text (e.leaves ++ t) = false ↔
      NoneOf [text] (Leaf.front e.leaves.tail (tokenAt 0 t)) := by
  obtain ⟨rest, hrest⟩ := e.leaves_eq
  rw [hrest, List.cons_append, hasTextAt_one_cons, hasTextAt_eq_false_iff, tokenAt_zero_append,
    noneOf_singleton, List.tail_cons]

theorem field_eq_ok_iff (hr : r.Exact n) (hs : s.length ≤ n) {f : Field} :
    field r s = .ok (f, t) ↔ s = f.leaves ++ t ∧ f.Fits (tokenAt 0 t) := by
  have hshorter : ∀ {l : Leaf} {u : List Leaf}, (l :: u).length ≤ n → u.length ≤ n := by
    intro l u h
    simp only [List.length_cons] at h
    omega
  rw [field, current_bind]
  constructor
  · intro h
    cases s with
    | nil => exact absurd h fail_ne_ok
    | cons l u =>
      simp only [tokenAt_zero_cons, ite_apply] at h
      split at h
      · next hopen =>
        simp only [bind_eq_ok_iff, next_eq_ok_iff, expect_eq_ok_iff, pure_eq_ok_iff] at h
        obtain ⟨_, _, hl, key, v, hkey, closing, w, ⟨rfl, hclosing⟩, equals, x, ⟨rfl, hequals⟩,
          value, y, hvalue, rfl, rfl⟩ := h
        cases hl
        obtain ⟨rfl, hk⟩ := (hr.expression (hshorter hs)).1 hkey
        simp only [List.length_cons, List.length_append] at hs
        obtain ⟨rfl, hv⟩ := (hr.expression (by omega)).1 hvalue
        exact ⟨by simp [Field.leaves], hopen, hk, hclosing, hequals, hv⟩
      · rw [seesSecond_bind, ite_apply] at h
        split at h
        · next hnamed =>
          simp only [Bool.and_eq_true, beq_iff_eq] at hnamed
          simp only [bind_eq_ok_iff, next_eq_ok_iff, pure_eq_ok_iff] at h
          obtain ⟨_, _, hl, equals, v, rfl, value, y, hvalue, rfl, rfl⟩ := h
          cases hl
          simp only [List.length_cons] at hs
          obtain ⟨rfl, hv⟩ := (hr.expression (by omega)).1 hvalue
          refine ⟨by simp [Field.leaves], hnamed.1, ?_, hv⟩
          simpa [hasTextAt_one_cons, Leaf.Says] using hnamed.2
        · next hnamed =>
          simp only [bind_eq_ok_iff, pure_eq_ok_iff] at h
          obtain ⟨value, y, hvalue, rfl, rfl⟩ := h
          obtain ⟨heq, hv⟩ := (hr.expression hs).1 hvalue
          refine ⟨heq, hv, fun hname => hasTextAt_one_append.1 ?_⟩
          have hkind : value.head.token.kind = .name := hname
          simpa [token_eq_of_append heq (value.front_leaves _), hkind, heq] using hnamed
  · rintro ⟨rfl, hfit⟩
    cases f with
    | keyed opening key closing equals value =>
      obtain ⟨hopen, hk, hclosing, hequals, hv⟩ := hfit
      have hopen' : opening.token.isOperator "[" = true := hopen
      simp only [Field.leaves, List.cons_append, List.append_assoc, List.length_cons,
        List.length_append] at hs ⊢
      simp only [tokenAt_zero_cons, ite_apply, hopen', if_true, bind_eq_ok_iff, next_eq_ok_iff,
        expect_eq_ok_iff, pure_eq_ok_iff]
      exact ⟨opening, _, rfl, key, _,
        (hr.expression (by simp only [List.length_append, List.length_cons]; omega)).2 ⟨rfl, hk⟩,
        closing, _, ⟨rfl, hclosing⟩, equals, _, ⟨rfl, hequals⟩, value, t,
        (hr.expression (by simp only [List.length_append]; omega)).2 ⟨rfl, hv⟩, rfl, rfl⟩
    | named name equals value =>
      obtain ⟨hname, hequals, hv⟩ := hfit
      have hkind : name.token.kind = .name := hname
      have hopen : name.token.isOperator "[" = false := by simp [Token.isOperator, hkind]
      have hsecond : equals.token.text = "=" := hequals
      simp only [Field.leaves, List.cons_append, List.length_cons, List.length_append] at hs ⊢
      simp only [tokenAt_zero_cons, ite_apply, hopen, Bool.false_eq_true, if_false, seesSecond_bind,
        hasTextAt_one_cons, hasTextAt_zero_cons, hkind, hsecond, beq_self_eq_true, Bool.and_self,
        if_true, bind_eq_ok_iff, next_eq_ok_iff, pure_eq_ok_iff]
      exact ⟨name, _, rfl, equals, _, rfl, value, t,
        (hr.expression (by simp only [List.length_append]; omega)).2 ⟨rfl, hv⟩, rfl, rfl⟩
    | positional value =>
      obtain ⟨hv, hsecond⟩ := hfit
      have hopen := Token.not_index_of_startsExpr hv.starts
      have hnamed : ¬ (value.head.token.kind == .name &&
          hasTextAt 1 "=" (value.leaves ++ t)) = true := by
        simp only [Bool.and_eq_true, beq_iff_eq, not_and, Bool.not_eq_true]
        exact fun hkind => hasTextAt_one_append.2 (hsecond hkind)
      simp only [Field.leaves, tokenAt_zero_append, Expr.front_leaves, ite_apply, hopen,
        Bool.false_eq_true, if_false]
      rw [seesSecond_bind, if_neg hnamed]
      simp only [bind_eq_ok_iff, pure_eq_ok_iff]
      exact ⟨value, t, (hr.expression hs).2 ⟨rfl, hv⟩, rfl, rfl⟩

end Parser

end LuaLayout
