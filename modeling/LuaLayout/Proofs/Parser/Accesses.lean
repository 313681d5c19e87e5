/-
LuaLayout.Proofs.Parser.Accesses — operands and expressions are read exactly.

An access is a root and as many suffixes as follow; an operand is told apart by
its first token. With operands, expressions under a limit are read exactly from
lists that are one longer than those the inner rules are exact for.
-/
import LuaLayout.Proofs.Parser.Tables

namespace LuaLayout.Parser

variable {r : Rules} {n : Nat} {s t : List Leaf}

/-! ## 1. Accesses -/

theorem root_eq_ok_iff (hr : r.Exact n) (hs : s.length ≤ n + 1) {a : Root} :
    root r s = .ok (a, t) ↔ s = a.leaves ++ t ∧ a.Fits := by
  rw [root, current_bind]
  constructor
  · intro h
    cases s with
    | nil => exact absurd h fail_ne_ok
    | cons l u =>
      simp only [List.length_cons, Nat.add_le_add_iff_right] at hs
      simp only [tokenAt_zero_cons, ite_apply] at h
      split at h
      · next hopen =>
        simp only [bind_eq_ok_iff, next_eq_ok_iff, expect_eq_ok_iff, pure_eq_ok_iff] at h
        obtain ⟨_, _, hl, inner, v, hinner, closing, w, ⟨rfl, hclosing⟩, rfl, rfl⟩ := h
        cases hl
        obtain ⟨rfl, hi⟩ := (hr.expression hs).1 hinner
        exact ⟨by simp [Root.leaves], hopen, hi, hclosing⟩
      · split at h
        · next hname =>
          simp only [bind_eq_ok_iff, next_eq_ok_iff, pure_eq_ok_iff] at h
          obtain ⟨_, _, hl, rfl, rfl⟩ := h
          cases hl
          exact ⟨rfl, by simpa [Root.Fits, Leaf.IsName] using hname⟩
        · exact absurd h fail_ne_ok
  · rintro ⟨rfl, hfit⟩
    cases a with
    | name name =>
      have hkind : name.token.kind = .name := hfit
      simp only [Root.leaves, List.cons_append, List.nil_append, tokenAt_zero_cons, ite_apply,
        Token.isOperator, hkind]
      rw [if_neg (by simp), if_pos (by decide)]
      simp only [bind_eq_ok_iff, next_eq_ok_iff, pure_eq_ok_iff]
      exact ⟨name, t, rfl, rfl, rfl⟩
    | group opening inner closing =>
      obtain ⟨hopen, hi, hclosing⟩ := hfit
      have hopen' : opening.token.isOperator "(" = true := hopen
      simp only [Root.leaves, List.cons_append, List.append_assoc, List.length_cons,
        List.length_append, Nat.add_le_add_iff_right] at hs ⊢
      simp only [tokenAt_zero_cons, ite_apply, hopen', if_true, bind_eq_ok_iff, next_eq_ok_iff,
        expect_eq_ok_iff, pure_eq_ok_iff]
      exact ⟨opening, _, rfl, inner, _,
        (hr.expression (by simp only [List.length_append, List.length_cons]; omega)).2 ⟨rfl, hi⟩,
        closing, t, ⟨rfl, hclosing⟩, rfl, rfl⟩

/-- An argument list, from its opening parenthesis on, as a step of an access is read
there. -/
def arguments (r : Rules) : Parser (Option Suffix) := do
  let opening ← next
  if ← sees ")" then return some (.call opening none (← expect ")"))
  else
    let arguments ← expressions r
    return some (.call opening (some arguments) (← expect ")"))

/-- An argument list that is read fits. -/
theorem fits_of_arguments (hr : r.Exact n) {l : Leaf} (hs : s.length ≤ n) (hopen : l.IsSymbol "(")
    {x : Suffix} (h : arguments r (l :: s) = .ok (some x, t)) : l :: s = x.leaves ++ t ∧ x.Fits := by
  obtain ⟨opening, v, hl, h⟩ := bind_eq_ok_iff.1 h
  cases next_eq_ok_iff.1 hl
  rw [sees_bind, ite_apply] at h
  split at h
  · simp only [bind_eq_ok_iff, expect_eq_ok_iff, pure_eq_ok_iff] at h
    obtain ⟨closing, w, ⟨rfl, hclosing⟩, heq, rfl⟩ := h
    cases heq
    exact ⟨rfl, hopen, hclosing⟩
  · next hclose =>
    simp only [bind_eq_ok_iff, expect_eq_ok_iff, pure_eq_ok_iff] at h
    obtain ⟨args, v, hargs, closing, w, ⟨rfl, hclosing⟩, heq, rfl⟩ := h
    cases heq
    obtain ⟨rfl, ha⟩ := (expressions_eq_ok_iff hr hs).1 hargs
    refine ⟨by simp [Suffix.leaves], hopen, ?_, ha, hclosing⟩
    obtain ⟨m, rest, hm⟩ := args.leaves_eq
    simpa [hm, noneOf_singleton] using hclose

/-- An argument list that fits is read. -/
theorem arguments_of_fits (hr : r.Exact n) {opening closing : Leaf} {args : Option Exprs}
    (hs : ((Suffix.call opening args closing).leaves ++ t).length ≤ n + 1)
    (hfit : (Suffix.call opening args closing).Fits) :
    arguments r ((Suffix.call opening args closing).leaves ++ t) =
      .ok (some (.call opening args closing), t) := by
  cases args with
  | none =>
    have hc : closing.token.text = ")" := hfit.2
    refine bind_eq_ok_iff.2 ⟨opening, _, next_eq_ok_iff.2 rfl, ?_⟩
    rw [sees_bind, ite_apply, if_pos (by simp [hc])]
    simp only [bind_eq_ok_iff, expect_eq_ok_iff, pure_eq_ok_iff]
    exact ⟨closing, t, ⟨rfl, hfit.2⟩, rfl, rfl⟩
  | some args =>
    obtain ⟨-, hfirst, ha, hclosing⟩ := hfit
    simp only [Suffix.leaves, List.cons_append, List.append_assoc, List.length_cons,
      Nat.add_le_add_iff_right] at hs ⊢
    refine bind_eq_ok_iff.2 ⟨opening, _, next_eq_ok_iff.2 rfl, ?_⟩
    rw [sees_bind, ite_apply, if_neg]
    · simp only [bind_eq_ok_iff, expect_eq_ok_iff, pure_eq_ok_iff]
      exact ⟨args, _, (expressions_eq_ok_iff hr hs).2 ⟨rfl, ha⟩, closing, t, ⟨rfl, hclosing⟩, rfl,
        rfl⟩
    · obtain ⟨m, rest, hm⟩ := args.leaves_eq
      simpa [hm, noneOf_singleton] using hfirst

/-- A step of an access that is read fits. -/
theorem fits_of_suffix (hr : r.Exact n) (hs : s.length ≤ n + 1) {x : Suffix}
    (h : suffix r s = .ok (some x, t)) : s = x.leaves ++ t ∧ x.Fits := by
  rw [suffix, current_bind] at h
  cases s with
  | nil => simp [pure_eq_ok_iff] at h
  | cons l u =>
    have hu : u.length ≤ n := by simpa using hs
    simp only [tokenAt_zero_cons, ite_apply] at h
    split at h
    · next hstring =>
      simp only [bind_eq_ok_iff, next_eq_ok_iff, pure_eq_ok_iff] at h
      obtain ⟨_, _, hl, heq, rfl⟩ := h
      cases hl; cases heq
      exact ⟨rfl, by simpa [Suffix.Fits] using hstring⟩
    split at h
    · next hsep =>
      simp only [bind_eq_ok_iff, next_eq_ok_iff, expectName_eq_ok_iff, pure_eq_ok_iff] at h
      obtain ⟨_, _, hl, name, v, ⟨rfl, hname⟩, heq, rfl⟩ := h
      cases hl; cases heq
      exact ⟨rfl, by simpa [Leaf.IsSymbol] using hsep, hname⟩
    split at h
    · next hopen =>
      simp only [bind_eq_ok_iff, next_eq_ok_iff, expect_eq_ok_iff, pure_eq_ok_iff] at h
      obtain ⟨_, _, hl, key, v, hkey, closing, w, ⟨rfl, hclosing⟩, heq, rfl⟩ := h
      cases hl; cases heq
      obtain ⟨rfl, hk⟩ := (hr.expression hu).1 hkey
      exact ⟨by simp [Suffix.leaves], hopen, hk, hclosing⟩
    split at h
    · next hbrace =>
      simp only [bind_eq_ok_iff, pure_eq_ok_iff] at h
      obtain ⟨tab, v, htab, heq, rfl⟩ := h
      cases heq
      obtain ⟨heq, hfit⟩ := (table_eq_ok_iff hr hs).1 htab
      rw [token_eq_of_append heq (tab.front_leaves _)] at hbrace
      exact ⟨heq, hbrace, hfit⟩
    split at h
    · next hopen => exact fits_of_arguments hr hu hopen h
    · simp [pure_eq_ok_iff] at h

/-- A step of an access that fits is read: its first token tells which it is. -/
theorem suffix_of_fits (hr : r.Exact n) {x : Suffix} (hs : (x.leaves ++ t).length ≤ n + 1)
    (hfit : x.Fits) : suffix r (x.leaves ++ t) = .ok (some x, t) := by
  rw [suffix, current_bind]
  cases x with
  | text string =>
    have hkind : string.token.kind = .string := hfit
    simp only [Suffix.leaves, List.cons_append, List.nil_append, tokenAt_zero_cons, ite_apply,
      hkind, beq_self_eq_true, if_true, bind_eq_ok_iff, next_eq_ok_iff, pure_eq_ok_iff]
    exact ⟨string, t, rfl, rfl, rfl⟩
  | member separator name =>
    obtain ⟨hsep, hname⟩ := hfit
    have hsep' : (separator.token.isOperator "." || separator.token.isOperator ":") = true := by
      simpa [Leaf.IsSymbol] using hsep
    have hkind : separator.token.kind = .operator := by
      rcases hsep with h | h <;> exact (Token.isOperator_iff.1 h).1
    simp only [Suffix.leaves, List.cons_append, List.nil_append, tokenAt_zero_cons, ite_apply,
      hkind]
    rw [if_neg (by decide), if_pos hsep']
    simp only [bind_eq_ok_iff, next_eq_ok_iff, expectName_eq_ok_iff, pure_eq_ok_iff]
    exact ⟨separator, _, rfl, name, t, ⟨rfl, hname⟩, rfl, rfl⟩
  | index opening key closing =>
    obtain ⟨hopen, hk, hclosing⟩ := hfit
    obtain ⟨hkind, htext⟩ := Token.isOperator_iff.1 hopen
    simp only [Suffix.leaves, List.cons_append, List.append_assoc, List.length_cons,
      Nat.add_le_add_iff_right] at hs ⊢
    simp only [tokenAt_zero_cons, ite_apply, Token.isOperator, hkind, htext]
    rw [if_neg (by decide), if_neg (by decide), if_pos (by decide)]
    simp only [bind_eq_ok_iff, next_eq_ok_iff, expect_eq_ok_iff, pure_eq_ok_iff]
    exact ⟨opening, _, rfl, key, _, (hr.expression hs).2 ⟨rfl, hk⟩, closing, t, ⟨rfl, hclosing⟩,
      rfl, rfl⟩
  | table fields =>
    obtain ⟨hopen, hf⟩ := hfit
    obtain ⟨hkind, htext⟩ := Token.isOperator_iff.1 hopen
    simp only [Suffix.leaves, tokenAt_zero_append, Table.front_leaves, ite_apply,
      Token.isOperator, hkind, htext]
    rw [if_neg (by decide), if_neg (by decide), if_neg (by decide), if_pos (by decide)]
    simp only [bind_eq_ok_iff, pure_eq_ok_iff]
    exact ⟨fields, t, (table_eq_ok_iff hr hs).2 ⟨rfl, hf⟩, rfl, rfl⟩
  | call opening args closing =>
    have hopen : opening.IsSymbol "(" := by
      cases args <;> exact hfit.1
    obtain ⟨hkind, htext⟩ := Token.isOperator_iff.1 hopen
    have hfirst : tokenAt 0 ((Suffix.call opening args closing).leaves ++ t) =
        some opening.token := by
      cases args <;> rfl
    simp only [hfirst, ite_apply, Token.isOperator, hkind, htext]
    rw [if_neg (by decide), if_neg (by decide), if_neg (by decide), if_neg (by decide),
      if_pos (by decide)]
    exact arguments_of_fits hr hs hfit

theorem suffix_eq_some_iff (hr : r.Exact n) (hs : s.length ≤ n + 1) {x : Suffix} :
    suffix r s = .ok (some x, t) ↔ s = x.leaves ++ t ∧ x.Fits := by
  constructor
  · exact fits_of_suffix hr hs
  · rintro ⟨rfl, hfit⟩
    exact suffix_of_fits hr hs hfit

theorem suffix_eq_none_iff : suffix r s = .ok (none, t) ↔ s = t ∧ EndsAccess (tokenAt 0 s) := by
  rw [suffix, current_bind]
  cases s with
  | nil => simp [pure_eq_ok_iff, EndsAccess]
  | cons l u =>
    have hends : EndsAccess (tokenAt 0 (l :: u)) ↔ l.token.startsSuffix = false := by
      simp [EndsAccess]
    rw [hends]
    simp only [tokenAt_zero_cons, ite_apply, Token.startsSuffix, Bool.or_eq_false_iff]
    constructor
    · intro h
      split at h
      · simp [map_eq_ok_iff] at h
      split at h
      · simp [bind_eq_ok_iff, map_eq_ok_iff] at h
      split at h
      · simp [bind_eq_ok_iff, map_eq_ok_iff] at h
      split at h
      · simp [map_eq_ok_iff] at h
      split at h
      · obtain ⟨opening, v, hl, hcall⟩ := bind_eq_ok_iff.1 h
        rw [sees_bind, ite_apply] at hcall
        split at hcall <;> simp [bind_eq_ok_iff, map_eq_ok_iff] at hcall
      · next h1 h2 h3 h4 h5 =>
        simp only [pure_eq_ok_iff, true_and] at h
        simp only [Bool.or_eq_true, not_or, Bool.not_eq_true] at h1 h2 h3 h4 h5
        exact ⟨h, ⟨⟨⟨⟨h1, h2.1⟩, h2.2⟩, h3⟩, h4⟩, h5⟩
    · rintro ⟨rfl, ⟨⟨⟨⟨h1, h2⟩, h3⟩, h4⟩, h5⟩, h6⟩
      simp only [h1, h2, h3, h4, h5, h6, Bool.or_self, Bool.false_eq_true, if_false, pure_eq_ok_iff,
        and_self]

theorem suffixes_eq_ok_iff (hr : r.Exact n) (hs : s.length ≤ n + 1) {xs : List Suffix} :
    many (suffix r) s = .ok (xs, t) ↔ s = suffixesLeaves xs ++ t ∧ SuffixesFit (tokenAt 0 t) xs := by
  refine many_eq_ok_iff_of_items Suffix.leaves (fun x _ => x.Fits)
    (fun u => EndsAccess (tokenAt 0 u)) suffixesLeaves (fun u => SuffixesFit (tokenAt 0 u))
    (fun _ _ _ h => suffix_eq_some_iff hr h) (fun _ _ => suffix_eq_none_iff) (fun x => ?_) rfl
    (fun _ _ => rfl) (fun _ => ?_) (fun _ _ _ => ?_) hs
  · obtain ⟨l, rest, hl⟩ := x.leaves_eq
    simp [hl]
  · simp only [SuffixesFit]
  · simp only [SuffixesFit]

theorem access_eq_ok_iff (hr : r.Exact n) (hs : s.length ≤ n + 1) {a : Access} :
    access r s = .ok (a, t) ↔ s = a.leaves ++ t ∧ a.Fits (tokenAt 0 t) := by
  obtain ⟨start, suffixes⟩ := a
  simp only [access, bind_eq_ok_iff, pure_eq_ok_iff]
  constructor
  · rintro ⟨start', u, hstart, suffixes', v, hsuffixes, heq, rfl⟩
    cases heq
    obtain ⟨rfl, hroot⟩ := (root_eq_ok_iff hr hs).1 hstart
    simp only [List.length_append] at hs
    obtain ⟨rfl, hfit⟩ := (suffixes_eq_ok_iff hr (by omega)).1 hsuffixes
    exact ⟨by simp [Access.leaves], hroot, hfit⟩
  · rintro ⟨rfl, hroot, hfit⟩
    simp only [Access.leaves, List.append_assoc, List.length_append] at hs ⊢
    exact ⟨start, _, (root_eq_ok_iff hr (by simp only [List.length_append]; omega)).2 ⟨rfl, hroot⟩,
      suffixes, t, (suffixes_eq_ok_iff hr (by simp only [List.length_append]; omega)).2 ⟨rfl, hfit⟩,
      rfl, rfl⟩

/-! ## 2. Operands and expressions -/

theorem simple_eq_ok_iff (hr : r.Exact n) (hs : s.length ≤ n + 1) {o : Operand}
    (hunary : ∀ x ∈ tokenAt 0 s, isUnary x = false) :
    simple r s = .ok (o, t) ↔ s = o.leaves ++ t ∧ o.Fits (tokenAt 0 t) := by
  rw [simple, current_bind]
  constructor
  · intro h
    cases s with
    | nil => exact absurd h refuse_ne_ok
    | cons l u =>
      simp only [tokenAt_zero_cons, ite_apply] at h
      split at h
      · next hliteral =>
        simp only [bind_eq_ok_iff, next_eq_ok_iff, pure_eq_ok_iff] at h
        obtain ⟨_, _, hl, rfl, rfl⟩ := h
        cases hl
        exact ⟨rfl, hliteral⟩
      split at h
      · next hbrace =>
        simp only [bind_eq_ok_iff, pure_eq_ok_iff] at h
        obtain ⟨tab, v, htab, rfl, rfl⟩ := h
        obtain ⟨heq, hfit⟩ := (table_eq_ok_iff hr hs).1 htab
        rw [token_eq_of_append heq (tab.front_leaves _)] at hbrace
        exact ⟨heq, hbrace, hfit⟩
      split at h
      · next hword =>
        simp only [bind_eq_ok_iff, next_eq_ok_iff, pure_eq_ok_iff] at h
        obtain ⟨_, _, hl, b, v, hb, rfl, rfl⟩ := h
        cases hl
        simp only [List.length_cons] at hs
        obtain ⟨rfl, hfit⟩ := (body_eq_ok_iff hr (by omega)).1 hb
        exact ⟨rfl, hword, hfit⟩
      · simp only [bind_eq_ok_iff, pure_eq_ok_iff] at h
        obtain ⟨path, v, hpath, rfl, rfl⟩ := h
        exact (access_eq_ok_iff hr hs).1 hpath
  · rintro ⟨rfl, hfit⟩
    cases o with
    | unary operator argument =>
      have hop := hunary operator.token rfl
      rw [hfit.1] at hop
      cases hop
    | literal value =>
      have hliteral : isLiteral value.token = true := hfit
      simp only [Operand.leaves, List.cons_append, List.nil_append, tokenAt_zero_cons, ite_apply]
      rw [if_pos hliteral]
      simp only [bind_eq_ok_iff, next_eq_ok_iff, pure_eq_ok_iff]
      exact ⟨value, t, rfl, rfl, rfl⟩
    | table fields =>
      obtain ⟨hopen, hf⟩ := hfit
      obtain ⟨hkind, htext⟩ := Token.isOperator_iff.1 hopen
      simp only [Operand.leaves, tokenAt_zero_append, Table.front_leaves, ite_apply, isLiteral,
        Token.isOperator, hkind, htext]
      rw [if_neg (by decide), if_pos (by decide)]
      simp only [bind_eq_ok_iff, pure_eq_ok_iff]
      exact ⟨fields, t, (table_eq_ok_iff hr hs).2 ⟨rfl, hf⟩, rfl, rfl⟩
    | function word b =>
      obtain ⟨hword, hb⟩ := hfit
      obtain ⟨hkind, htext⟩ := Token.isKeyword_iff.1 hword
      simp only [Operand.leaves, List.cons_append, List.length_cons] at hs ⊢
      simp only [tokenAt_zero_cons, ite_apply, isLiteral, Token.isOperator, Token.isKeyword, hkind,
        htext]
      rw [if_neg (by decide), if_neg (by decide), if_pos (by decide)]
      simp only [bind_eq_ok_iff, next_eq_ok_iff, pure_eq_ok_iff]
      exact ⟨word, _, rfl, b, t, (body_eq_ok_iff hr (by omega)).2 ⟨rfl, hb⟩, rfl, rfl⟩
    | access path =>
      have hkinds : isLiteral path.head.token = false ∧ path.head.token.isOperator "\x7b" = false ∧
          path.head.token.isKeyword "function" = false := by
        rcases Access.Fits.starts hfit with hopen | hname
        · obtain ⟨hkind, htext⟩ := Token.isOperator_iff.1 hopen
          simp [isLiteral, Token.isOperator, Token.isKeyword, hkind, htext]
        · simp [isLiteral, Token.isOperator, Token.isKeyword, hname]
      simp only [Operand.leaves, tokenAt_zero_append, Access.front_leaves, ite_apply, hkinds,
        Bool.false_eq_true, if_false, bind_eq_ok_iff, pure_eq_ok_iff]
      exact ⟨path, t, (access_eq_ok_iff hr hs).2 ⟨rfl, hfit⟩, rfl, rfl⟩

theorem operand_eq_ok_iff (hr : r.Exact n) (hs : s.length ≤ n + 1) {o : Operand} :
    operand r s = .ok (o, t) ↔ s = o.leaves ++ t ∧ o.Fits (tokenAt 0 t) := by
  rw [operand, current_bind]
  cases s with
  | nil =>
    constructor
    · intro h
      exact absurd h fail_ne_ok
    · rintro ⟨heq, -⟩
      obtain ⟨rest, hrest⟩ := o.leaves_eq
      simp [hrest] at heq
  | cons l u =>
    simp only [tokenAt_zero_cons, ite_apply]
    cases hunary : isUnary l.token with
    | false =>
      rw [if_neg (by decide)]
      exact simple_eq_ok_iff hr hs (by simpa using hunary)
    | true =>
      rw [if_pos rfl]
      simp only [bind_eq_ok_iff, next_eq_ok_iff, pure_eq_ok_iff]
      simp only [List.length_cons, Nat.add_le_add_iff_right] at hs
      constructor
      · rintro ⟨_, _, hl, argument, v, harg, rfl, rfl⟩
        cases hl
        obtain ⟨rfl, hfit⟩ := (hr.expression hs).1 harg
        exact ⟨rfl, hunary, hfit⟩
      · rintro ⟨heq, hfit⟩
        rw [token_eq_of_append heq (o.front_leaves _)] at hunary
        obtain ⟨operator, argument, rfl⟩ := hfit.eq_unary hunary
        simp only [Operand.leaves, List.cons_append, List.cons.injEq] at heq
        obtain ⟨rfl, heq⟩ := heq
        exact ⟨l, u, rfl, argument, t, (hr.expression hs).2 ⟨heq, hfit.2⟩, rfl, rfl⟩

/-- Expressions are read exactly from lists that are one longer. -/
theorem expression_eq_ok_iff (hr : r.Exact n) (hs : s.length ≤ n + 1) {limit : Int} {e : Expr} :
    expression r limit s = .ok (e, t) ↔ s = e.leaves ++ t ∧ e.Fits limit (tokenAt 0 t) := by
  obtain ⟨o, ops⟩ := e
  simp only [expression, bind_eq_ok_iff, pure_eq_ok_iff]
  constructor
  · rintro ⟨o', u, ho, ops', v, hops, heq, rfl⟩
    cases heq
    obtain ⟨rfl, hfit⟩ := (operand_eq_ok_iff hr hs).1 ho
    simp only [List.length_append] at hs
    obtain ⟨rfl, hall⟩ := (operations_eq_ok_iff hr (by omega)).1 hops
    rw [tokenAt_zero_append] at hfit
    exact ⟨by simp [Expr.leaves], hfit, hall⟩
  · rintro ⟨rfl, hfit, hall⟩
    simp only [Expr.leaves, List.append_assoc, List.length_append] at hs ⊢
    refine ⟨o, _, (operand_eq_ok_iff hr (by simp only [List.length_append]; omega)).2 ⟨rfl, ?_⟩,
      ops, t, (operations_eq_ok_iff hr (by simp only [List.length_append]; omega)).2 ⟨rfl, hall⟩,
      rfl, rfl⟩
    rwa [tokenAt_zero_append]

end LuaLayout.Parser
