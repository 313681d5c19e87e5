/-
LuaLayout.Proofs.Parser.Blocks — declarations, assignments and whole blocks.

What no opening word announces is an access first; the token after it and its
last suffix decide whether it is a call or the first target of an assignment.
With every statement read exactly, a block is, and one more level of nesting
keeps the two rules exact for lists that are one longer. So the rules for some
leaves read them exactly.
-/
import LuaLayout.Proofs.Parser.Statements

open LuaLayout.Parser

namespace LuaLayout

namespace Parser

variable {r : Rules} {n : Nat} {s t : List Leaf} {x : Stat}

/-! ## 1. Declarations -/

/-- A separator and a name, or nothing where no separator announces them. -/
theorem ifSeesName_eq_ok_iff {separator : String} {method : Option (Leaf × Leaf)} :
    ifSees separator (nextThen expectName) s = .ok (method, t) ↔
      s = Leaf.ofPair Leaf.alone method ++ t ∧ Leaf.NamesFit separator method.toList ∧
        (method = none → NoneOf [separator] (tokenAt 0 t)) := by
  rw [ifSeesThen_eq_ok_iff Leaf.alone (fun l _ => l.IsName) s.length
    (fun _ => by rw [expectName_eq_ok_iff]; rfl) (by omega)]
  cases method with
  | none => simp only [Leaf.NamesFit, Option.not_mem_none, Option.toList_none, List.not_mem_nil]
  | some p => simp [Leaf.NamesFit]

/-- The body of a function begins with the bracket of its parameters. -/
theorem Body.Fits.starts {b : Body} (h : b.Fits) :
    ∃ l rest, b.leaves = l :: rest ∧ l.token.text = "(" := by
  obtain ⟨parameters, block, closing⟩ := b
  cases parameters with
  | none opening close => exact ⟨_, _, rfl, h.1.1⟩
  | some opening first more close => exact ⟨_, _, rfl, h.1.1⟩

/-- A function is read exactly with its path: neither a point nor a colon can stand where the
bracket of its parameters does. -/
theorem function_eq_ok_iff (hr : r.Exact n) (hs : s.length ≤ n + 1)
    (hopen : Announces .function s) :
    function r s = .ok (x, t) ↔ s = x.leaves ++ t ∧ x.Fits (tokenAt 0 t) := by
  constructor
  · intro h
    simp only [function, bind_eq_ok_iff, next_eq_ok_iff, expectName_eq_ok_iff, names_eq_ok_iff,
      ifSeesName_eq_ok_iff, pure_eq_ok_iff] at h
    obtain ⟨word, u, rfl, name, v, ⟨rfl, hname⟩, path, w, ⟨rfl, hpath, -⟩, method, z,
      ⟨rfl, hmethod, -⟩, b, y, hbody, rfl, rfl⟩ := h
    simp only [List.length_cons, List.length_append] at hs
    obtain ⟨rfl, hb⟩ := (body_eq_ok_iff hr (by omega)).1 hbody
    exact ⟨by simp [Stat.leaves], hopen.opens, hname, hpath, hmethod, hb⟩
  · rintro ⟨rfl, hfit⟩
    have hform := hopen.form_eq hfit
    cases x with
    | function word name path method b =>
      obtain ⟨-, hname, hpath, hmethod, hb⟩ := hfit
      obtain ⟨l, rest, hl, hbracket⟩ := Body.Fits.starts hb
      simp only [Stat.leaves, List.append_assoc, List.cons_append, List.length_append,
        List.length_cons] at hs ⊢
      simp only [function, bind_eq_ok_iff, next_eq_ok_iff, expectName_eq_ok_iff, names_eq_ok_iff,
        ifSeesName_eq_ok_iff, pure_eq_ok_iff]
      refine ⟨word, _, rfl, name, _, ⟨rfl, hname⟩, path, _, ⟨rfl, hpath, ?_⟩, method, _,
        ⟨rfl, hmethod, fun _ => ?_⟩, b, t, (body_eq_ok_iff hr
        (by simp only [List.length_append]; omega)).2 ⟨rfl, hb⟩, rfl, rfl⟩
      · obtain _ | ⟨colon, part⟩ := method
        · simp [Leaf.ofPair, hl, noneOf_singleton, hbracket]
        · have hcolon : colon.token.text = ":" := (hmethod (colon, part) (by simp)).1
          simp [Leaf.ofPair, noneOf_singleton, hcolon]
      · simp [hl, noneOf_singleton, hbracket]
    | _ => cases hform

theorem mark_eq_ok_iff {m : Mark} :
    mark s = .ok (m, t) ↔ s = m.leaves ++ t ∧ m.word.IsName ∧ m.closing.Says ">" := by
  obtain ⟨opening, word, closing⟩ := m
  simp only [mark, bind_eq_ok_iff, next_eq_ok_iff, expectName_eq_ok_iff, expect_eq_ok_iff,
    pure_eq_ok_iff, Mark.leaves, Mark.mk.injEq]
  constructor
  · rintro ⟨_, u, rfl, _, v, ⟨rfl, hword⟩, _, w, ⟨rfl, hclosing⟩, ⟨rfl, rfl, rfl⟩, rfl⟩
    exact ⟨rfl, hword, hclosing⟩
  · rintro ⟨rfl, hword, hclosing⟩
    exact ⟨opening, _, rfl, word, _, ⟨rfl, hword⟩, closing, t, ⟨rfl, hclosing⟩, ⟨rfl, rfl, rfl⟩, rfl⟩

theorem localName_eq_ok_iff {m : LocalName} :
    localName s = .ok (m, t) ↔ s = m.leaves ++ t ∧ m.Fits (tokenAt 0 t) := by
  obtain ⟨name, _ | m⟩ := m
  · simp only [localName, bind_eq_ok_iff, expectName_eq_ok_iff, pure_eq_ok_iff,
      LocalName.leaves, LocalName.Fits, LocalName.mk.injEq, noneOf_singleton]
    constructor
    · rintro ⟨_, u, ⟨rfl, hname⟩, _, v, hmark, ⟨rfl, rfl⟩, rfl⟩
      obtain ⟨rfl, hnone⟩ := ifSees_eq_none_iff.1 hmark
      exact ⟨rfl, hname, hnone⟩
    · rintro ⟨rfl, hname, hnone⟩
      exact ⟨name, _, ⟨rfl, hname⟩, none, t, ifSees_eq_none_iff.2 ⟨rfl, hnone⟩, ⟨rfl, rfl⟩, rfl⟩
  · simp only [localName, bind_eq_ok_iff, expectName_eq_ok_iff, pure_eq_ok_iff,
      LocalName.leaves, LocalName.Fits, Mark.Fits, LocalName.mk.injEq]
    constructor
    · rintro ⟨_, u, ⟨rfl, hname⟩, _, v, hmark, ⟨rfl, rfl⟩, rfl⟩
      obtain ⟨⟨y, hy, htext⟩, hm⟩ := ifSees_eq_some_iff.1 hmark
      obtain ⟨rfl, hword, hclosing⟩ := mark_eq_ok_iff.1 hm
      obtain rfl : m.opening.token = y := by simpa [Mark.leaves] using hy
      exact ⟨rfl, hname, htext, hword, hclosing⟩
    · rintro ⟨rfl, hname, hopening, hword, hclosing⟩
      exact ⟨name, _, ⟨rfl, hname⟩, some m, t, ifSees_eq_some_iff.2
        ⟨⟨m.opening.token, rfl, hopening⟩, mark_eq_ok_iff.2 ⟨rfl, hword, hclosing⟩⟩,
        ⟨rfl, rfl⟩, rfl⟩

theorem moreLocalNames_eq_ok_iff {more : List (Leaf × LocalName)} :
    moreAfter "," localName s = .ok (more, t) ↔
      s = Leaf.ofPairs LocalName.leaves more ++ t ∧ LocalName.MoreFit (tokenAt 0 t) more := by
  rw [localNamesFit_iff]
  exact moreAfter_eq_ok_iff LocalName.leaves (fun m next => m.Fits next) s.length
    (fun _ => localName_eq_ok_iff) (by omega)

/-- Local names and local functions are told apart by the leaf behind the first word. -/
theorem localNames_eq_ok_iff (hr : r.Exact n) (hs : s.length ≤ n + 1)
    (hopen : Announces .localNames s) :
    localNames r s = .ok (x, t) ↔ s = x.leaves ++ t ∧ x.Fits (tokenAt 0 t) := by
  constructor
  · intro hread
    obtain ⟨word, u, hword, h⟩ := bind_eq_ok_iff.1 hread
    obtain rfl := next_eq_ok_iff.1 hword
    simp only [List.length_cons, Nat.add_le_add_iff_right] at hs
    rw [sees_bind, ite_apply] at h
    split at h
    · next hfunction =>
      simp only [bind_eq_ok_iff, next_eq_ok_iff, expectName_eq_ok_iff, pure_eq_ok_iff] at h
      obtain ⟨function, v, rfl, name, w, ⟨rfl, hname⟩, b, z, hbody, rfl, rfl⟩ := h
      simp only [List.length_cons] at hs
      obtain ⟨rfl, hb⟩ := (body_eq_ok_iff hr (by omega)).1 hbody
      exact ⟨by simp [Stat.leaves], hopen.opens, by simpa [Leaf.Says] using hfunction, hname, hb⟩
    · next hfunction =>
      obtain ⟨first, v, hfirst, hrest⟩ := bind_eq_ok_iff.1 h
      obtain ⟨rfl, hf⟩ := localName_eq_ok_iff.1 hfirst
      obtain ⟨more, w, hnames, hvalues⟩ := bind_eq_ok_iff.1 hrest
      obtain ⟨rfl, hm⟩ := moreLocalNames_eq_ok_iff.1 hnames
      obtain ⟨values, z, hgiven, hpure⟩ := bind_eq_ok_iff.1 hvalues
      obtain ⟨rfl, rfl⟩ := pure_eq_ok_iff.1 hpure
      have hnot : ¬ first.name.Says "function" := by
        simpa [LocalName.leaves, Leaf.Says] using hfunction
      simp only [List.length_append] at hs
      rw [tokenAt_zero_append] at hf
      obtain _ | ⟨equals, values⟩ := values
      · obtain ⟨rfl, hnone⟩ := ifSees_eq_none_iff.1 hgiven
        exact ⟨by simp [Stat.leaves], hopen.opens, hnot, hf, hm, noneOf_singleton.2 hnone⟩
      · obtain ⟨a, rfl, htext, hlist⟩ := ifSeesThen_eq_some_iff.1 hgiven
        simp only [List.length_cons] at hs
        obtain ⟨rfl, hv⟩ := (expressions_eq_ok_iff hr (by omega)).1 hlist
        exact ⟨by simp [Stat.leaves], hopen.opens, hnot, hf, hm, htext, hv⟩
  · rintro ⟨rfl, hfit⟩
    have hform := hopen.form_eq hfit
    cases x with
    | localFunction word function name b =>
      obtain ⟨-, hfunction, hname, hb⟩ := hfit
      have htext : function.token.text = "function" := hfunction
      simp only [Stat.leaves, List.cons_append, List.length_cons] at hs ⊢
      refine bind_eq_ok_iff.2 ⟨word, _, next_eq_ok_iff.2 rfl, ?_⟩
      rw [sees_bind, ite_apply, if_pos (by simp [htext])]
      simp only [bind_eq_ok_iff, next_eq_ok_iff, expectName_eq_ok_iff, pure_eq_ok_iff]
      exact ⟨function, _, rfl, name, _, ⟨rfl, hname⟩, b, t, (body_eq_ok_iff hr (by omega)).2
        ⟨rfl, hb⟩, rfl, rfl⟩
    | localNames word first more values =>
      have hnot : first.name.token.text ≠ "function" := by
        obtain _ | ⟨equals, values⟩ := values <;> exact hfit.2.1
      obtain _ | ⟨equals, values⟩ := values
      · obtain ⟨-, -, hf, hm, hnone⟩ := hfit
        simp only [Stat.leaves, List.append_assoc, List.cons_append]
        refine bind_eq_ok_iff.2 ⟨word, _, next_eq_ok_iff.2 rfl, ?_⟩
        rw [sees_bind, ite_apply, if_neg (by simpa [LocalName.leaves] using hnot)]
        refine bind_eq_ok_iff.2 ⟨first, _, localName_eq_ok_iff.2 ⟨rfl, ?_⟩,
          bind_eq_ok_iff.2 ⟨more, t, moreLocalNames_eq_ok_iff.2 ⟨rfl, hm⟩, bind_eq_ok_iff.2 ⟨none, t,
          ifSees_eq_none_iff.2 ⟨rfl, noneOf_singleton.1 hnone⟩, pure_eq_ok_iff.2 ⟨rfl, rfl⟩⟩⟩⟩
        rwa [tokenAt_zero_append]
      · obtain ⟨-, -, hf, hm, hequals, hv⟩ := hfit
        simp only [Stat.leaves, List.append_assoc, List.cons_append, List.length_append,
          List.length_cons] at hs ⊢
        refine bind_eq_ok_iff.2 ⟨word, _, next_eq_ok_iff.2 rfl, ?_⟩
        rw [sees_bind, ite_apply, if_neg (by simpa [LocalName.leaves] using hnot)]
        refine bind_eq_ok_iff.2 ⟨first, _, localName_eq_ok_iff.2 ⟨rfl, ?_⟩,
          bind_eq_ok_iff.2 ⟨more, _, moreLocalNames_eq_ok_iff.2 ⟨rfl, hm⟩, bind_eq_ok_iff.2 ⟨some (equals, values), t,
          ifSeesThen_eq_some_iff.2 ⟨_, rfl, hequals,
            (expressions_eq_ok_iff hr (by simp only [List.length_append]; omega)).2 ⟨rfl, hv⟩⟩,
          pure_eq_ok_iff.2 ⟨rfl, rfl⟩⟩⟩⟩
        rwa [tokenAt_zero_append]
    | _ => cases hform

/-! ## 2. Assignments and calls -/

theorem requireAssignable_eq_ok_iff {start : Option Token} {target : Access} {u : Unit} :
    requireAssignable start target s = .ok (u, t) ↔ s = t ∧ target.kind = .assignable := by
  rw [requireAssignable, ite_apply]
  split
  · next h => simp [pure_eq_ok_iff, h]
  · next h => simp [failNear_ne_ok, h]

theorem assignable_eq_ok_iff (hr : r.Exact n) (hs : s.length ≤ n + 1) {a : Access} :
    assignable r s = .ok (a, t) ↔
      s = a.leaves ++ t ∧ a.Fits (tokenAt 0 t) ∧ a.kind = .assignable := by
  rw [assignable, current_bind]
  simp only [bind_eq_ok_iff, requireAssignable_eq_ok_iff, pure_eq_ok_iff]
  constructor
  · rintro ⟨_, u, haccess, -, v, ⟨rfl, hkind⟩, rfl, rfl⟩
    obtain ⟨heq, hfit⟩ := (access_eq_ok_iff hr hs).1 haccess
    exact ⟨heq, hfit, hkind⟩
  · rintro ⟨heq, hfit, hkind⟩
    exact ⟨a, t, (access_eq_ok_iff hr hs).2 ⟨heq, hfit⟩, (), t, ⟨rfl, hkind⟩, rfl, rfl⟩

theorem Access.Fits.opensNone {a : Access} {u : List Leaf}
    (h : ∀ l ∈ (a.leaves ++ u).head?, l.OpensNone) : a.head.OpensNone := by
  obtain ⟨rest, hrest⟩ := a.leaves_eq
  exact h a.head (by simp [hrest])

/-- Further targets are read exactly, each of them one that can be assigned to. -/
theorem targets_eq_ok_iff (hr : r.Exact n) (hs : s.length ≤ n + 1) {more : List (Leaf × Access)} :
    moreAfter "," (assignable r) s = .ok (more, t) ↔
      s = commaAccessesLeaves more ++ t ∧ CommaAccessesFit (tokenAt 0 t) more ∧
        NoneOf [","] (tokenAt 0 t) := by
  rw [commaAccessesLeaves_eq, commaAccessesFit_iff]
  exact moreAfter_eq_ok_iff Access.leaves (fun a next => a.Fits next ∧ a.kind = .assignable) n
    (fun h => assignable_eq_ok_iff hr (by omega)) hs

/-- An access is the first target where a comma or an equals sign stands behind it, and a call
where none does. -/
theorem assignmentOrCall_eq_ok_iff (hr : r.Exact n) (hs : s.length ≤ n + 1)
    (hopen : ∀ l ∈ s.head?, l.OpensNone) :
    assignmentOrCall r s = .ok (x, t) ↔ s = x.leaves ++ t ∧ x.Fits (tokenAt 0 t) := by
  rw [assignmentOrCall, current_bind]
  constructor
  · intro hread
    obtain ⟨first, u, haccess, h⟩ := bind_eq_ok_iff.1 hread
    obtain ⟨rfl, hf⟩ := (access_eq_ok_iff hr hs).1 haccess
    have hhead := Access.Fits.opensNone hopen
    simp only [List.length_append] at hs
    rw [sees_bind, sees_bind, ite_apply] at h
    split at h
    · obtain ⟨_, v, hrequire, hlist⟩ := bind_eq_ok_iff.1 h
      obtain ⟨rfl, hkind⟩ := requireAssignable_eq_ok_iff.1 hrequire
      simp only [bind_eq_ok_iff, expect_eq_ok_iff, pure_eq_ok_iff] at hlist
      obtain ⟨more, w, htargets, equals, z, ⟨rfl, hequals⟩, values, y, hvalues, rfl, rfl⟩ := hlist
      obtain ⟨rfl, hm, -⟩ := (targets_eq_ok_iff hr (by omega)).1 htargets
      simp only [List.length_append, List.length_cons] at hs
      obtain ⟨rfl, hv⟩ := (expressions_eq_ok_iff hr (by omega)).1 hvalues
      rw [tokenAt_zero_append] at hf
      exact ⟨by simp [Stat.leaves], hhead, hf, hkind, hm, hequals, hv⟩
    · next hneither =>
      rw [ite_apply] at h
      split at h
      · next hkind =>
        obtain ⟨rfl, rfl⟩ := pure_eq_ok_iff.1 h
        refine ⟨rfl, hhead, hf, hkind, fun y hy => ?_⟩
        simp only [Bool.or_eq_true, not_or, Bool.not_eq_true, hasTextAt_eq_false_iff] at hneither
        simp [hneither.1 y hy, hneither.2 y hy]
      · exact absurd h failNear_ne_ok
  · rintro ⟨rfl, hfit⟩
    obtain ⟨l, rest, hl, hform⟩ := hfit.announces
    have hnone : x.form? = none := by
      rw [← hform]
      exact (hopen l (by simp [hl])).1
    cases x with
    | assignment first more equals values =>
      obtain ⟨-, hf, hkind, hm, hequals, hv⟩ := hfit
      have htext : equals.token.text = "=" := hequals
      simp only [Stat.leaves, List.append_assoc, List.cons_append, List.length_append,
        List.length_cons] at hs ⊢
      refine bind_eq_ok_iff.2 ⟨first, _, (access_eq_ok_iff hr
        (by simp only [List.length_append, List.length_cons]; omega)).2 ⟨rfl, ?_⟩, ?_⟩
      · rw [tokenAt_zero_append]
        exact hf
      rw [sees_bind, sees_bind, ite_apply, if_pos]
      · refine bind_eq_ok_iff.2 ⟨(), _, requireAssignable_eq_ok_iff.2 ⟨rfl, hkind⟩, ?_⟩
        simp only [bind_eq_ok_iff, expect_eq_ok_iff, pure_eq_ok_iff]
        exact ⟨more, _, (targets_eq_ok_iff hr (by simp only [List.length_append, List.length_cons]; omega)).2
          ⟨rfl, hm, by simp [noneOf_singleton, htext]⟩, equals, _, ⟨rfl, hequals⟩, values, t,
          (expressions_eq_ok_iff hr (by simp only [List.length_append]; omega)).2 ⟨rfl, hv⟩,
          rfl, rfl⟩
      · obtain _ | ⟨⟨comma, a⟩, more⟩ := more
        · simp [commaAccessesLeaves, htext]
        · have hcomma : comma.token.text = "," := hm.1
          simp [commaAccessesLeaves, hcomma]
    | call callee =>
      obtain ⟨-, hf, hkind, hend⟩ := hfit
      have hneither : (hasTextAt 0 "," t || hasTextAt 0 "=" t) = false := by
        simp only [Bool.or_eq_false_iff, hasTextAt_eq_false_iff]
        exact ⟨fun y hy htext => hend y hy (by simp [htext]),
          fun y hy htext => hend y hy (by simp [htext])⟩
      refine bind_eq_ok_iff.2 ⟨callee, _, (access_eq_ok_iff hr hs).2 ⟨rfl, hf⟩, ?_⟩
      rw [sees_bind, sees_bind, ite_apply, hneither, if_neg (by decide), ite_apply, if_pos hkind]
      exact pure_eq_ok_iff.2 ⟨rfl, rfl⟩
    | _ => cases hnone

/-! ## 3. Statements -/

theorem statementOf_eq_ok_iff (hr : r.Exact n) (hs : s.length ≤ n + 1) {form : StatementForm}
    (hopen : Announces form s) :
    statementOf r form s = .ok (x, t) ↔ s = x.leaves ++ t ∧ x.Fits (tokenAt 0 t) := by
  cases form with
  | breakLoop => exact breakLoop_eq_ok_iff hopen
  | goto => exact goto_eq_ok_iff hopen
  | label => exact label_eq_ok_iff hopen
  | empty => exact empty_eq_ok_iff hopen
  | doBlock => exact doBlock_eq_ok_iff hr hs hopen
  | whileLoop => exact whileLoop_eq_ok_iff hr hs hopen
  | repeatLoop => exact repeatLoop_eq_ok_iff hr hs hopen
  | conditional => exact conditional_eq_ok_iff hr hs hopen
  | forLoop => exact forLoop_eq_ok_iff hr hs hopen
  | function => exact function_eq_ok_iff hr hs hopen
  | localNames => exact localNames_eq_ok_iff hr hs hopen
  | result => exact result_eq_ok_iff hr hs hopen

/-- A statement that fits does not begin with a binary operator. -/
theorem Stat.Fits.not_binary {next : Option Token} {l : Leaf} {rest : List Leaf}
    (hfit : x.Fits next) (hl : x.leaves = l :: rest) (hnone : StatementForm.ofToken? l.token = none) :
    binaryPowers? l.token = none := by
  obtain ⟨m, rest', hm, hform⟩ := hfit.announces
  rw [hl, List.cons.injEq] at hm
  obtain ⟨rfl, -⟩ := hm
  rw [hnone] at hform
  cases x with
  | assignment first more equals values =>
    obtain ⟨rest', hrest⟩ := first.leaves_eq
    simp only [Stat.leaves, hrest, List.cons_append, List.cons.injEq] at hl
    rw [← hl.1]
    exact hfit.1.2
  | call callee =>
    obtain ⟨rest', hrest⟩ := callee.leaves_eq
    simp only [Stat.leaves, hrest, List.cons.injEq] at hl
    rw [← hl.1]
    exact hfit.1.2
  | _ => cases hform

/-- A statement is read exactly: its first token tells its form, or that it begins with an
access. -/
theorem statement_eq_ok_iff (hr : r.Exact n) (hs : s.length ≤ n + 1) :
    statement r s = .ok (x, t) ↔ s = x.leaves ++ t ∧ x.Fits (tokenAt 0 t) := by
  rw [statement, current_bind]
  cases s with
  | nil =>
    obtain ⟨l, rest, hl⟩ := x.leaves_eq
    simp [hl, refuse_ne_ok]
  | cons l u =>
    simp only [tokenAt_zero_cons]
    cases hform : StatementForm.ofToken? l.token with
    | some form => exact statementOf_eq_ok_iff hr hs hform
    | none =>
      simp only [ite_apply]
      cases hbinary : binaryPowers? l.token with
      | some powers =>
        rw [if_pos (by rfl)]
        refine ⟨fun h => absurd h fail_ne_ok, fun ⟨heq, hfit⟩ => ?_⟩
        obtain ⟨m, rest, hm⟩ := x.leaves_eq
        rw [hm, List.cons_append, List.cons.injEq] at heq
        obtain ⟨rfl, -⟩ := heq
        rw [Stat.Fits.not_binary hfit hm hform] at hbinary
        cases hbinary
      | none =>
        rw [if_neg (by decide)]
        exact assignmentOrCall_eq_ok_iff hr hs (by simp [Leaf.OpensNone, hform, hbinary])

/-! ## 4. Blocks -/

theorem nextStatement_eq_none_iff :
    nextStatement r s = .ok (none, t) ↔ s = t ∧ (tokenAt 0 s).all endsBlock = true := by
  rw [nextStatement, current_bind, ite_apply]
  split
  · next h => simp [pure_eq_ok_iff, h]
  · next h => simp [map_eq_ok_iff, h]

/-- Another statement is read exactly where the block does not end. -/
theorem nextStatement_eq_some_iff (hr : r.Exact n) (hs : s.length ≤ n + 1) :
    nextStatement r s = .ok (some x, t) ↔
      s = x.leaves ++ t ∧ (Leaf.front x.leaves none).all endsBlock = false ∧
        x.Fits (tokenAt 0 t) := by
  rw [nextStatement, current_bind, ite_apply]
  obtain ⟨l, rest, hl⟩ := x.leaves_eq
  split
  · next h =>
    simp only [pure_eq_ok_iff, reduceCtorEq, false_and, false_iff, not_and]
    rintro rfl hnot
    simp only [hl, List.cons_append, tokenAt_zero_cons, Option.all_some, Leaf.front_cons] at h hnot
    rw [h] at hnot
    cases hnot
  · next h =>
    simp only [map_eq_ok_iff, Option.some.injEq, exists_eq_right, statement_eq_ok_iff hr hs]
    constructor
    · rintro ⟨rfl, hfit⟩
      exact ⟨rfl, by simpa [hl] using h, hfit⟩
    · rintro ⟨rfl, -, hfit⟩
      exact ⟨rfl, hfit⟩

/-- Statements are read exactly, up to a token that ends the block. -/
theorem statements_eq_ok_iff (hr : r.Exact n) (hs : s.length ≤ n + 1) {xs : List Stat} :
    many (nextStatement r) s = .ok (xs, t) ↔
      s = statementsLeaves xs ++ t ∧ StatementsFit (tokenAt 0 t) xs := by
  refine many_eq_ok_iff_of_items Stat.leaves
    (fun x u => (Leaf.front x.leaves none).all endsBlock = false ∧ x.Fits (tokenAt 0 u))
    (fun u => (tokenAt 0 u).all endsBlock = true) statementsLeaves
    (fun u => StatementsFit (tokenAt 0 u)) (fun _ _ _ h => nextStatement_eq_some_iff hr h)
    (fun _ _ => nextStatement_eq_none_iff) (fun x => ?_) rfl (fun _ _ => rfl) (fun _ => ?_)
    (fun _ _ _ => ?_) hs
  · obtain ⟨l, rest, hl⟩ := x.leaves_eq
    simp [hl]
  · simp only [StatementsFit]
  · simp only [StatementsFit, tokenAt_zero_append, and_assoc]

theorem block_eq_ok_iff (hr : r.Exact n) (hs : s.length ≤ n + 1) {b : Block} :
    block r s = .ok (b, t) ↔ s = b.leaves ++ t ∧ b.Fits (tokenAt 0 t) := by
  obtain ⟨xs⟩ := b
  rw [block, bind_eq_ok_iff]
  simp only [pure_eq_ok_iff, Block.mk.injEq, Block.leaves, Block.Fits, ← statements_eq_ok_iff hr hs]
  constructor
  · rintro ⟨_, _, h, rfl, rfl⟩
    exact h
  · exact fun h => ⟨xs, t, h, rfl, rfl⟩

end Parser

/-! ## 5. The rules -/

namespace Rules

/-- Without a leaf there is no expression to read, and the block is empty. -/
theorem ofDepth_one_exact : (ofDepth true 1).Exact 0 where
  expression := by
    intro limit s e t hs
    obtain rfl : s = [] := List.eq_nil_of_length_eq_zero (Nat.le_zero.1 hs)
    obtain ⟨rest, hrest⟩ := e.leaves_eq
    constructor
    · intro h
      obtain ⟨_, _, hoperand, -⟩ := bind_eq_ok_iff.1 h
      exact absurd hoperand fail_ne_ok
    · rintro ⟨heq, -⟩
      simp [hrest] at heq
  block := by
    intro s b t hs
    obtain rfl : s = [] := List.eq_nil_of_length_eq_zero (Nat.le_zero.1 hs)
    have hread : (ofDepth true 1).block [] = .ok (.mk [], []) := rfl
    rw [hread]
    obtain ⟨xs⟩ := b
    obtain _ | ⟨y, rest⟩ := xs
    · simp [Block.leaves, statementsLeaves, Block.Fits, StatementsFit]
      rintro rfl
      rfl
    · obtain ⟨l, rest', hl⟩ := y.leaves_eq
      simp [Block.leaves, statementsLeaves, hl]

/-- One level of nesting more reads lists that are one leaf longer. -/
theorem ofDepth_exact (n : Nat) : (ofDepth true (n + 1)).Exact n := by
  induction n with
  | zero => exact ofDepth_one_exact
  | succ n ih => exact ⟨fun hs => expression_eq_ok_iff ih hs, fun hs => block_eq_ok_iff ih hs⟩

/-- The rules for some leaves read a block from them exactly. -/
theorem forLeaves_block_eq_ok_iff {s t : List Leaf} {b : Block} :
    (forLeaves true s).block s = .ok (b, t) ↔ s = b.leaves ++ t ∧ b.Fits (tokenAt 0 t) :=
  (ofDepth_exact s.length).block (Nat.le_refl _)

end Rules

end LuaLayout
