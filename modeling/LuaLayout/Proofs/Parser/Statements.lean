/-
LuaLayout.Proofs.Parser.Statements — statements and blocks are read exactly.

The opening token of a statement decides its form, and a statement that fits
has the form that its own opening token announces. So each form is shown exact
by itself, for lists on which it is announced: reading one gives a statement of
that form, and a statement that fits there has no other.
-/
import LuaLayout.Proofs.Parser.Accesses

open LuaLayout.Parser

namespace LuaLayout

/-! ## 1. The form of a statement -/

namespace Stat

/-- The form that the opening token of a statement announces, if it does. -/
def form? : Stat → Option StatementForm
  | breakLoop .. => some .breakLoop
  | goto .. => some .goto
  | label .. => some .label
  | empty .. => some .empty
  | doBlock .. => some .doBlock
  | whileLoop .. => some .whileLoop
  | repeatLoop .. => some .repeatLoop
  | conditional .. => some .conditional
  | countingLoop .. => some .forLoop
  | iteration .. => some .forLoop
  | function .. => some .function
  | localFunction .. => some .localNames
  | localNames .. => some .localNames
  | result .. => some .result
  | assignment .. => none
  | call .. => none

/-- A statement that fits announces itself. -/
theorem Fits.announces {x : Stat} {next : Option Token} (h : x.Fits next) :
    ∃ l rest, x.leaves = l :: rest ∧ StatementForm.ofToken? l.token = x.form? := by
  cases x with
  | conditional first more otherwise closing =>
    obtain ⟨l, rest, hl⟩ := first.leaves_eq
    refine ⟨l, _, by simp only [leaves, hl, List.cons_append]; rfl, ?_⟩
    exact h.1 l (by simp [hl])
  | localNames word first more values =>
    obtain _ | ⟨equals, values⟩ := values <;> exact ⟨_, _, rfl, h.1⟩
  | result word values => cases values <;> exact ⟨_, _, rfl, h.1⟩
  | assignment first more equals values =>
    obtain ⟨rest, hrest⟩ := first.leaves_eq
    exact ⟨first.head, _, by simp only [leaves, hrest, List.cons_append]; rfl, h.1.1⟩
  | call callee =>
    obtain ⟨rest, hrest⟩ := callee.leaves_eq
    exact ⟨callee.head, _, hrest, h.1.1⟩
  | goto word target => exact ⟨_, _, rfl, h.1⟩
  | breakLoop word => exact ⟨_, _, rfl, h⟩
  | empty semicolon => exact ⟨_, _, rfl, h⟩
  | label opening name closing => exact ⟨_, _, rfl, h.1⟩
  | doBlock word block closing => exact ⟨_, _, rfl, h.1⟩
  | whileLoop word condition opening block closing => exact ⟨_, _, rfl, h.1⟩
  | repeatLoop word block closing condition => exact ⟨_, _, rfl, h.1⟩
  | countingLoop word name equals start comma stop step opening block closing =>
    exact ⟨_, _, rfl, h.1⟩
  | iteration word name more between values opening block closing => exact ⟨_, _, rfl, h.1⟩
  | function word name path method body => exact ⟨_, _, rfl, h.1⟩
  | localFunction word function name body => exact ⟨_, _, rfl, h.1⟩

end Stat

namespace Parser

variable {r : Rules} {n : Nat} {s t : List Leaf} {x : Stat}

/-- The next token opens a statement of the form. -/
def Announces (form : StatementForm) (s : List Leaf) : Prop :=
  (tokenAt 0 s).bind StatementForm.ofToken? = some form

theorem Announces.opens {form : StatementForm} {l : Leaf} {u : List Leaf}
    (h : Announces form (l :: u)) : l.Opens form := h

/-- Where a form is announced, no other statement fits. -/
theorem Announces.form_eq {form : StatementForm} {next : Option Token}
    (h : Announces form (x.leaves ++ t)) (hfit : x.Fits next) : x.form? = some form := by
  obtain ⟨l, rest, hl, hform⟩ := hfit.announces
  rw [hl] at h
  exact hform.symm.trans h

/-! ## 2. Simple statements -/

theorem breakLoop_eq_ok_iff (hopen : Announces .breakLoop s) :
    breakLoop s = .ok (x, t) ↔ s = x.leaves ++ t ∧ x.Fits (tokenAt 0 t) := by
  constructor
  · intro h
    simp only [breakLoop, bind_eq_ok_iff, next_eq_ok_iff, pure_eq_ok_iff] at h
    obtain ⟨word, u, rfl, rfl, rfl⟩ := h
    exact ⟨rfl, hopen.opens⟩
  · rintro ⟨rfl, hfit⟩
    have hform := hopen.form_eq hfit
    cases x with
    | breakLoop word =>
      simp only [breakLoop, bind_eq_ok_iff, next_eq_ok_iff, pure_eq_ok_iff]
      exact ⟨word, t, rfl, rfl, rfl⟩
    | _ => cases hform

theorem goto_eq_ok_iff (hopen : Announces .goto s) :
    goto s = .ok (x, t) ↔ s = x.leaves ++ t ∧ x.Fits (tokenAt 0 t) := by
  constructor
  · intro h
    simp only [goto, bind_eq_ok_iff, next_eq_ok_iff, expectName_eq_ok_iff, pure_eq_ok_iff] at h
    obtain ⟨word, u, rfl, target, v, ⟨rfl, hname⟩, rfl, rfl⟩ := h
    exact ⟨rfl, hopen.opens, hname⟩
  · rintro ⟨rfl, hfit⟩
    have hform := hopen.form_eq hfit
    cases x with
    | goto word target =>
      simp only [goto, bind_eq_ok_iff, next_eq_ok_iff, expectName_eq_ok_iff, pure_eq_ok_iff]
      exact ⟨word, _, rfl, target, t, ⟨rfl, hfit.2⟩, rfl, rfl⟩
    | _ => cases hform

theorem label_eq_ok_iff (hopen : Announces .label s) :
    label s = .ok (x, t) ↔ s = x.leaves ++ t ∧ x.Fits (tokenAt 0 t) := by
  constructor
  · intro h
    simp only [label, bind_eq_ok_iff, next_eq_ok_iff, expectName_eq_ok_iff, expect_eq_ok_iff,
      pure_eq_ok_iff] at h
    obtain ⟨opening, u, rfl, name, v, ⟨rfl, hname⟩, closing, w, ⟨rfl, hclosing⟩, rfl, rfl⟩ := h
    exact ⟨rfl, hopen.opens, hname, hclosing⟩
  · rintro ⟨rfl, hfit⟩
    have hform := hopen.form_eq hfit
    cases x with
    | label opening name closing =>
      simp only [label, bind_eq_ok_iff, next_eq_ok_iff, expectName_eq_ok_iff, expect_eq_ok_iff,
        pure_eq_ok_iff]
      exact ⟨opening, _, rfl, name, _, ⟨rfl, hfit.2.1⟩, closing, t, ⟨rfl, hfit.2.2⟩, rfl, rfl⟩
    | _ => cases hform

theorem empty_eq_ok_iff (hopen : Announces .empty s) :
    empty s = .ok (x, t) ↔ s = x.leaves ++ t ∧ x.Fits (tokenAt 0 t) := by
  constructor
  · intro h
    simp only [empty, bind_eq_ok_iff, next_eq_ok_iff, pure_eq_ok_iff] at h
    obtain ⟨semicolon, u, rfl, rfl, rfl⟩ := h
    exact ⟨rfl, hopen.opens⟩
  · rintro ⟨rfl, hfit⟩
    have hform := hopen.form_eq hfit
    cases x with
    | empty semicolon =>
      simp only [empty, bind_eq_ok_iff, next_eq_ok_iff, pure_eq_ok_iff]
      exact ⟨semicolon, t, rfl, rfl, rfl⟩
    | _ => cases hform

/-- What a return gives back may be missing; then the token behind it ends the block. -/
theorem result_eq_ok_iff (hr : r.Exact n) (hs : s.length ≤ n + 1) (hopen : Announces .result s) :
    result r s = .ok (x, t) ↔ s = x.leaves ++ t ∧ x.Fits (tokenAt 0 t) := by
  constructor
  · intro h
    rw [result, bind_eq_ok_iff] at h
    obtain ⟨word, u, hword, h⟩ := h
    obtain rfl := next_eq_ok_iff.1 hword
    simp only [List.length_cons, Nat.add_le_add_iff_right] at hs
    rw [current_bind, ite_apply] at h
    split at h
    · next hend =>
      obtain ⟨rfl, rfl⟩ := pure_eq_ok_iff.1 h
      exact ⟨rfl, hopen.opens, hend⟩
    · next hend =>
      simp only [bind_eq_ok_iff, pure_eq_ok_iff] at h
      obtain ⟨values, v, hvalues, rfl, rfl⟩ := h
      obtain ⟨rfl, hfit⟩ := (expressions_eq_ok_iff hr hs).1 hvalues
      refine ⟨rfl, hopen.opens, ?_, hfit⟩
      obtain ⟨l, rest, hl⟩ := values.leaves_eq
      simpa [hl] using hend
  · rintro ⟨rfl, hfit⟩
    have hform := hopen.form_eq hfit
    cases x with
    | result word values =>
      cases values with
      | none =>
        refine bind_eq_ok_iff.2 ⟨word, t, next_eq_ok_iff.2 rfl, ?_⟩
        rw [current_bind, ite_apply, if_pos hfit.2]
        exact pure_eq_ok_iff.2 ⟨rfl, rfl⟩
      | some values =>
        obtain ⟨-, hend, hv⟩ := hfit
        simp only [Stat.leaves, List.cons_append, List.length_cons, Nat.add_le_add_iff_right] at hs
        refine bind_eq_ok_iff.2 ⟨word, _, next_eq_ok_iff.2 rfl, ?_⟩
        rw [current_bind, ite_apply, if_neg]
        · simp only [bind_eq_ok_iff, pure_eq_ok_iff]
          exact ⟨values, t, (expressions_eq_ok_iff hr hs).2 ⟨rfl, hv⟩, rfl, rfl⟩
        · obtain ⟨l, rest, hl⟩ := values.leaves_eq
          simpa [hl] using hend
    | _ => cases hform

/-! ## 3. Blocks and loops -/

theorem doBlock_eq_ok_iff (hr : r.Exact n) (hs : s.length ≤ n + 1) (hopen : Announces .doBlock s) :
    doBlock r s = .ok (x, t) ↔ s = x.leaves ++ t ∧ x.Fits (tokenAt 0 t) := by
  constructor
  · intro h
    simp only [doBlock, bind_eq_ok_iff, next_eq_ok_iff, expect_eq_ok_iff, pure_eq_ok_iff] at h
    obtain ⟨word, u, rfl, block, v, hblock, closing, w, ⟨rfl, hclosing⟩, rfl, rfl⟩ := h
    simp only [List.length_cons, Nat.add_le_add_iff_right] at hs
    obtain ⟨rfl, hb⟩ := (hr.block hs).1 hblock
    exact ⟨by simp [Stat.leaves], hopen.opens, hb, hclosing⟩
  · rintro ⟨rfl, hfit⟩
    have hform := hopen.form_eq hfit
    cases x with
    | doBlock word block closing =>
      obtain ⟨-, hb, hclosing⟩ := hfit
      simp only [Stat.leaves, List.cons_append, List.append_assoc, List.nil_append,
        List.length_cons, List.length_append] at hs ⊢
      simp only [doBlock, bind_eq_ok_iff, next_eq_ok_iff, expect_eq_ok_iff, pure_eq_ok_iff]
      exact ⟨word, _, rfl, block, _, (hr.block
        (by simp only [List.length_append, List.length_cons]; omega)).2 ⟨rfl, hb⟩,
        closing, t, ⟨rfl, hclosing⟩, rfl, rfl⟩
    | _ => cases hform

theorem whileLoop_eq_ok_iff (hr : r.Exact n) (hs : s.length ≤ n + 1)
    (hopen : Announces .whileLoop s) :
    whileLoop r s = .ok (x, t) ↔ s = x.leaves ++ t ∧ x.Fits (tokenAt 0 t) := by
  constructor
  · intro h
    simp only [whileLoop, bind_eq_ok_iff, next_eq_ok_iff, expect_eq_ok_iff, pure_eq_ok_iff] at h
    obtain ⟨word, u, rfl, condition, v, hcondition, opening, w, ⟨rfl, hdo⟩, block, z, hblock,
      closing, y, ⟨rfl, hclosing⟩, rfl, rfl⟩ := h
    simp only [List.length_cons, Nat.add_le_add_iff_right] at hs
    obtain ⟨rfl, hc⟩ := (hr.expression hs).1 hcondition
    simp only [List.length_append, List.length_cons] at hs
    obtain ⟨rfl, hb⟩ := (hr.block (by omega)).1 hblock
    exact ⟨by simp [Stat.leaves], hopen.opens, hc, hdo, hb, hclosing⟩
  · rintro ⟨rfl, hfit⟩
    have hform := hopen.form_eq hfit
    cases x with
    | whileLoop word condition opening block closing =>
      obtain ⟨-, hc, hdo, hb, hclosing⟩ := hfit
      simp only [Stat.leaves, List.cons_append, List.append_assoc, List.nil_append,
        List.length_cons, List.length_append] at hs ⊢
      simp only [whileLoop, bind_eq_ok_iff, next_eq_ok_iff, expect_eq_ok_iff, pure_eq_ok_iff]
      exact ⟨word, _, rfl, condition, _, (hr.expression
        (by simp only [List.length_append, List.length_cons]; omega)).2 ⟨rfl, hc⟩,
        opening, _, ⟨rfl, hdo⟩, block, _, (hr.block
        (by simp only [List.length_append, List.length_cons]; omega)).2 ⟨rfl, hb⟩,
        closing, t, ⟨rfl, hclosing⟩, rfl, rfl⟩
    | _ => cases hform

theorem repeatLoop_eq_ok_iff (hr : r.Exact n) (hs : s.length ≤ n + 1)
    (hopen : Announces .repeatLoop s) :
    repeatLoop r s = .ok (x, t) ↔ s = x.leaves ++ t ∧ x.Fits (tokenAt 0 t) := by
  constructor
  · intro h
    simp only [repeatLoop, bind_eq_ok_iff, next_eq_ok_iff, expect_eq_ok_iff, pure_eq_ok_iff] at h
    obtain ⟨word, u, rfl, block, v, hblock, closing, w, ⟨rfl, huntil⟩, condition, z, hcondition,
      rfl, rfl⟩ := h
    simp only [List.length_cons, Nat.add_le_add_iff_right] at hs
    obtain ⟨rfl, hb⟩ := (hr.block hs).1 hblock
    simp only [List.length_append, List.length_cons] at hs
    obtain ⟨rfl, hc⟩ := (hr.expression (by omega)).1 hcondition
    exact ⟨by simp [Stat.leaves], hopen.opens, hb, huntil, hc⟩
  · rintro ⟨rfl, hfit⟩
    have hform := hopen.form_eq hfit
    cases x with
    | repeatLoop word block closing condition =>
      obtain ⟨-, hb, huntil, hc⟩ := hfit
      simp only [Stat.leaves, List.cons_append, List.append_assoc, List.length_cons,
        List.length_append] at hs ⊢
      simp only [repeatLoop, bind_eq_ok_iff, next_eq_ok_iff, expect_eq_ok_iff, pure_eq_ok_iff]
      exact ⟨word, _, rfl, block, _, (hr.block
        (by simp only [List.length_append, List.length_cons]; omega)).2 ⟨rfl, hb⟩,
        closing, _, ⟨rfl, huntil⟩, condition, t, (hr.expression
        (by simp only [List.length_append]; omega)).2 ⟨rfl, hc⟩, rfl, rfl⟩
    | _ => cases hform

/-! ## 4. Conditions -/

/-- A branch is read with any first word: the callers ask for the word that theirs has. -/
theorem branch_eq_ok_iff (hr : r.Exact n) (hs : s.length ≤ n + 1) {b : Branch} :
    branch r s = .ok (b, t) ↔ s = b.leaves ++ t ∧ b.Fits (tokenAt 0 t) := by
  obtain ⟨word, condition, opening, block⟩ := b
  simp only [branch, bind_eq_ok_iff, next_eq_ok_iff, expect_eq_ok_iff, pure_eq_ok_iff]
  constructor
  · rintro ⟨_, u, rfl, _, v, hcondition, _, w, ⟨rfl, hthen⟩, _, z, hblock, heq, rfl⟩
    cases heq
    simp only [List.length_cons, Nat.add_le_add_iff_right] at hs
    obtain ⟨rfl, hc⟩ := (hr.expression hs).1 hcondition
    simp only [List.length_append, List.length_cons] at hs
    obtain ⟨rfl, hb⟩ := (hr.block (by omega)).1 hblock
    exact ⟨by simp [Branch.leaves], hc, hthen, hb⟩
  · rintro ⟨rfl, hc, hthen, hb⟩
    simp only [Branch.leaves, List.cons_append, List.append_assoc, List.length_cons,
      List.length_append] at hs ⊢
    exact ⟨word, _, rfl, condition, _, (hr.expression
      (by simp only [List.length_append, List.length_cons]; omega)).2 ⟨rfl, hc⟩,
      opening, _, ⟨rfl, hthen⟩, block, t, (hr.block
      (by simp only [List.length_append]; omega)).2 ⟨rfl, hb⟩, rfl, rfl⟩

theorem nextBranch_eq_some_iff (hr : r.Exact n) (hs : s.length ≤ n + 1) {b : Branch} :
    ifSees "elseif" (branch r) s = .ok (some b, t) ↔
      s = b.leaves ++ t ∧ (∀ l ∈ b.leaves.head?, l.Says "elseif") ∧ b.Fits (tokenAt 0 t) := by
  rw [ifSees_eq_some_iff, branch_eq_ok_iff hr hs]
  obtain ⟨l, rest, hl⟩ := b.leaves_eq
  constructor
  · rintro ⟨⟨y, hy, htext⟩, rfl, hfit⟩
    rw [hl, List.cons_append, tokenAt_zero_cons, Option.mem_some_iff] at hy
    subst hy
    exact ⟨rfl, by simpa [hl, Leaf.Says] using htext, hfit⟩
  · rintro ⟨rfl, htext, hfit⟩
    refine ⟨⟨l.token, by simp [hl], ?_⟩, rfl, hfit⟩
    exact htext l (by simp [hl])

/-- Further branches are read exactly, up to a word that announces none. -/
theorem branches_eq_ok_iff (hr : r.Exact n) (hs : s.length ≤ n + 1) {bs : List Branch} :
    many (ifSees "elseif" (branch r)) s = .ok (bs, t) ↔
      s = branchesLeaves bs ++ t ∧ BranchesFit (tokenAt 0 t) bs ∧
        NoneOf ["elseif"] (tokenAt 0 t) := by
  refine many_eq_ok_iff_of_items Branch.leaves
    (fun b u => (∀ l ∈ b.leaves.head?, l.Says "elseif") ∧ b.Fits (tokenAt 0 u))
    (fun u => NoneOf ["elseif"] (tokenAt 0 u)) branchesLeaves
    (fun u bs => BranchesFit (tokenAt 0 u) bs ∧ NoneOf ["elseif"] (tokenAt 0 u))
    (fun _ _ _ h => nextBranch_eq_some_iff hr h) (fun _ _ => ?_) (fun b => ?_) rfl (fun _ _ => rfl)
    (fun _ => ?_) (fun _ _ _ => ?_) hs
  · rw [ifSees_eq_none_iff, noneOf_singleton]
  · obtain ⟨l, rest, hl⟩ := b.leaves_eq
    simp [hl]
  · simp only [BranchesFit, true_and]
  · simp only [BranchesFit, tokenAt_zero_append, and_assoc]

/-- What is done if no condition holds, or nothing where no word announces it. -/
theorem otherwise_eq_ok_iff (hr : r.Exact n) (hs : s.length ≤ n + 1)
    {otherwise : Option (Leaf × Block)} :
    ifSees "else" (nextThen r.block) s = .ok (otherwise, t) ↔
      s = otherwiseLeaves otherwise ++ t ∧ OtherwiseFits (tokenAt 0 t) otherwise ∧
        (otherwise = none → NoneOf ["else"] (tokenAt 0 t)) := by
  rw [ifSeesThen_eq_ok_iff Block.leaves (fun b next => b.Fits next) n (fun h => hr.block h) hs]
  cases otherwise with
  | none => simp only [Leaf.ofPair, otherwiseLeaves, OtherwiseFits, Option.not_mem_none,
      false_imp_iff, implies_true]
  | some p => simp [Leaf.ofPair, otherwiseLeaves, OtherwiseFits]

theorem noneOf_front_otherwise {otherwise : Option (Leaf × Block)} {next : Option Token}
    (h : OtherwiseFits next otherwise) (hnext : ∀ y ∈ next, y.text ≠ "elseif") :
    NoneOf ["elseif"] (Leaf.front (otherwiseLeaves otherwise) next) := by
  rw [noneOf_singleton]
  obtain _ | ⟨word, block⟩ := otherwise
  · exact hnext
  · have hword : word.token.text = "else" := h.1
    simp [otherwiseLeaves, hword]

/-- A condition is read exactly: its last word is none of those that announce another branch. -/
theorem conditional_eq_ok_iff (hr : r.Exact n) (hs : s.length ≤ n + 1)
    (hopen : Announces .conditional s) :
    conditional r s = .ok (x, t) ↔ s = x.leaves ++ t ∧ x.Fits (tokenAt 0 t) := by
  constructor
  · intro h
    simp only [conditional, bind_eq_ok_iff, expect_eq_ok_iff, pure_eq_ok_iff] at h
    obtain ⟨first, u, hfirst, more, v, hmore, otherwise, w, hotherwise, closing, z,
      ⟨rfl, hclosing⟩, rfl, rfl⟩ := h
    obtain ⟨rfl, hf⟩ := (branch_eq_ok_iff hr hs).1 hfirst
    simp only [List.length_append] at hs
    obtain ⟨rfl, hm, -⟩ := (branches_eq_ok_iff hr (by omega)).1 hmore
    simp only [List.length_append] at hs
    obtain ⟨rfl, ho, -⟩ := (otherwise_eq_ok_iff hr (by omega)).1 hotherwise
    rw [tokenAt_zero_append] at hf hm
    rw [tokenAt_zero_append, ← Leaf.front_append] at hf
    refine ⟨by simp [Stat.leaves], fun l hl => ?_, hf, hm, ho, hclosing⟩
    obtain ⟨word, rest, hrest⟩ := first.leaves_eq
    rw [hrest] at hopen hl
    obtain rfl : word = l := by simpa using hl
    exact hopen.opens
  · rintro ⟨rfl, hfit⟩
    have hform := hopen.form_eq hfit
    cases x with
    | conditional first more otherwise closing =>
      obtain ⟨-, hf, hm, ho, hclosing⟩ := hfit
      have hend : closing.token.text = "end" := hclosing
      simp only [Stat.leaves, List.append_assoc, List.cons_append, List.nil_append,
        List.length_append, List.length_cons] at hs ⊢
      simp only [conditional, bind_eq_ok_iff, expect_eq_ok_iff, pure_eq_ok_iff]
      refine ⟨first, _, (branch_eq_ok_iff hr
        (by simp only [List.length_append, List.length_cons]; omega)).2 ⟨rfl, ?_⟩,
        more, _, (branches_eq_ok_iff hr
        (by simp only [List.length_append, List.length_cons]; omega)).2 ⟨rfl, ?_, ?_⟩,
        otherwise, _, (otherwise_eq_ok_iff hr
        (by simp only [List.length_append, List.length_cons]; omega)).2 ⟨rfl, ho, fun _ => ?_⟩,
        closing, t, ⟨rfl, hclosing⟩, rfl, rfl⟩
      · rw [tokenAt_zero_append, tokenAt_zero_append, ← Leaf.front_append]
        exact hf
      · rw [tokenAt_zero_append]
        exact hm
      · rw [tokenAt_zero_append]
        exact noneOf_front_otherwise ho (by simp [hend])
      · simp [noneOf_singleton, hend]
    | _ => cases hform

/-! ## 5. Counting and iterating -/

/-- The step of a counting loop, or nothing where no comma announces it. -/
theorem step_eq_ok_iff (hr : r.Exact n) (hs : s.length ≤ n + 1) {step : Option (Leaf × Expr)} :
    ifSees "," (nextThen (r.expression 0)) s = .ok (step, t) ↔
      s = stepLeaves step ++ t ∧ StepFits (tokenAt 0 t) step ∧
        (step = none → NoneOf [","] (tokenAt 0 t)) := by
  rw [ifSeesThen_eq_ok_iff Expr.leaves (fun e next => e.Fits 0 next) n (fun h => hr.expression h) hs]
  cases step with
  | none => simp only [Leaf.ofPair, stepLeaves, StepFits, Option.not_mem_none, false_imp_iff,
      implies_true]
  | some p => simp [Leaf.ofPair, stepLeaves, StepFits]

/-- Names after separators, up to a token that does not separate. -/
theorem names_eq_ok_iff {separator : String} {more : List (Leaf × Leaf)} :
    moreAfter separator expectName s = .ok (more, t) ↔
      s = Leaf.ofPairs Leaf.alone more ++ t ∧ Leaf.NamesFit separator more ∧
        NoneOf [separator] (tokenAt 0 t) := by
  rw [namesFit_iff separator (tokenAt 0 t)]
  refine moreAfter_eq_ok_iff Leaf.alone (fun l _ => l.IsName) s.length (fun _ => ?_) (by omega)
  rw [expectName_eq_ok_iff]
  rfl

/-- A loop that is read fits. The leaf behind the first name tells the two kinds apart. -/
theorem fits_of_forLoop (hr : r.Exact n) (hs : s.length ≤ n + 1) (hopen : Announces .forLoop s)
    (hread : forLoop r s = .ok (x, t)) : s = x.leaves ++ t ∧ x.Fits (tokenAt 0 t) := by
  obtain ⟨word, u, hword, hnamed⟩ := bind_eq_ok_iff.1 hread
  obtain rfl := next_eq_ok_iff.1 hword
  obtain ⟨name, v, hname, h⟩ := bind_eq_ok_iff.1 hnamed
  obtain ⟨rfl, hkind⟩ := expectName_eq_ok_iff.1 hname
  simp only [List.length_cons] at hs
  rw [sees_bind, ite_apply] at h
  split at h
  · next hequals =>
    simp only [bind_eq_ok_iff, next_eq_ok_iff, expect_eq_ok_iff, pure_eq_ok_iff] at h
    obtain ⟨equals, w, rfl, start, a, hstart, comma, b, ⟨rfl, hcomma⟩, stop, c, hstop, step, d,
      hstep, opening, e, ⟨rfl, hdo⟩, block, f, hblock, closing, g, ⟨rfl, hclosing⟩, rfl, rfl⟩ := h
    simp only [List.length_cons] at hs
    obtain ⟨rfl, hfirst⟩ := (hr.expression (by omega)).1 hstart
    simp only [List.length_append, List.length_cons] at hs
    obtain ⟨rfl, hlast⟩ := (hr.expression (by omega)).1 hstop
    simp only [List.length_append] at hs
    obtain ⟨rfl, hby, -⟩ := (step_eq_ok_iff hr (by omega)).1 hstep
    simp only [List.length_append, List.length_cons] at hs
    obtain ⟨rfl, hb⟩ := (hr.block (by omega)).1 hblock
    rw [tokenAt_zero_append] at hlast
    exact ⟨by simp [Stat.leaves], hopen.opens, hkind, by simpa [Leaf.Says] using hequals, hfirst,
      hcomma, hlast, hby, hdo, hb, hclosing⟩
  · simp only [bind_eq_ok_iff, expect_eq_ok_iff, pure_eq_ok_iff] at h
    obtain ⟨more, w, hmore, between, a, ⟨rfl, hin⟩, values, b, hvalues, opening, c, ⟨rfl, hdo⟩,
      block, d, hblock, closing, e, ⟨rfl, hclosing⟩, rfl, rfl⟩ := h
    obtain ⟨rfl, hnames, -⟩ := names_eq_ok_iff.1 hmore
    simp only [List.length_append, List.length_cons] at hs
    obtain ⟨rfl, hv⟩ := (expressions_eq_ok_iff hr (by omega)).1 hvalues
    simp only [List.length_append, List.length_cons] at hs
    obtain ⟨rfl, hb⟩ := (hr.block (by omega)).1 hblock
    exact ⟨by simp [Stat.leaves], hopen.opens, hkind, hnames, hin, hv, hdo, hb, hclosing⟩

/-- A loop that fits is read, whichever of the two kinds it is. -/
theorem forLoop_of_fits (hr : r.Exact n) (hs : (x.leaves ++ t).length ≤ n + 1)
    (hopen : Announces .forLoop (x.leaves ++ t)) (hfit : x.Fits (tokenAt 0 t)) :
    forLoop r (x.leaves ++ t) = .ok (x, t) := by
  have hform := hopen.form_eq hfit
  cases x with
  | countingLoop word name equals start comma stop step opening block closing =>
    obtain ⟨-, hkind, hequals, hfirst, hcomma, hlast, hby, hdo, hb, hclosing⟩ := hfit
    have htext : equals.token.text = "=" := hequals
    have hdo' : opening.token.text = "do" := hdo
    simp only [Stat.leaves, List.append_assoc, List.cons_append, List.nil_append,
      List.length_append, List.length_cons] at hs ⊢
    refine bind_eq_ok_iff.2 ⟨word, _, next_eq_ok_iff.2 rfl,
      bind_eq_ok_iff.2 ⟨name, _, expectName_eq_ok_iff.2 ⟨rfl, hkind⟩, ?_⟩⟩
    rw [sees_bind, ite_apply, if_pos (by simp [htext])]
    simp only [bind_eq_ok_iff, next_eq_ok_iff, expect_eq_ok_iff, pure_eq_ok_iff]
    refine ⟨equals, _, rfl, start, _, (hr.expression
      (by simp only [List.length_append, List.length_cons]; omega)).2 ⟨rfl, hfirst⟩,
      comma, _, ⟨rfl, hcomma⟩, stop, _, (hr.expression
      (by simp only [List.length_append, List.length_cons]; omega)).2 ⟨rfl, ?_⟩,
      step, _, (step_eq_ok_iff hr
      (by simp only [List.length_append, List.length_cons]; omega)).2 ⟨rfl, hby, fun _ => ?_⟩,
      opening, _, ⟨rfl, hdo⟩, block, _, (hr.block
      (by simp only [List.length_append, List.length_cons]; omega)).2 ⟨rfl, hb⟩,
      closing, t, ⟨rfl, hclosing⟩, rfl, rfl⟩
    · rw [tokenAt_zero_append]
      exact hlast
    · simp [noneOf_singleton, hdo']
  | iteration word name more between values opening block closing =>
    obtain ⟨-, hkind, hnames, hin, hv, hdo, hb, hclosing⟩ := hfit
    have hin' : between.token.text = "in" := hin
    simp only [Stat.leaves, List.append_assoc, List.cons_append, List.nil_append,
      List.length_append, List.length_cons] at hs ⊢
    refine bind_eq_ok_iff.2 ⟨word, _, next_eq_ok_iff.2 rfl,
      bind_eq_ok_iff.2 ⟨name, _, expectName_eq_ok_iff.2 ⟨rfl, hkind⟩, ?_⟩⟩
    rw [sees_bind, ite_apply, if_neg]
    · simp only [bind_eq_ok_iff, expect_eq_ok_iff, pure_eq_ok_iff]
      exact ⟨more, _, names_eq_ok_iff.2 ⟨rfl, hnames, by simp [noneOf_singleton, hin']⟩,
        between, _, ⟨rfl, hin⟩, values, _, (expressions_eq_ok_iff hr
        (by simp only [List.length_append, List.length_cons]; omega)).2 ⟨rfl, hv⟩,
        opening, _, ⟨rfl, hdo⟩, block, _, (hr.block
        (by simp only [List.length_append, List.length_cons]; omega)).2 ⟨rfl, hb⟩,
        closing, t, ⟨rfl, hclosing⟩, rfl, rfl⟩
    · cases more with
      | nil => simp [Leaf.ofPairs, hin']
      | cons p rest =>
        have hcomma : p.1.token.text = "," := (hnames p (by simp)).1
        simp [Leaf.ofPairs, hcomma]
  | _ => cases hform

theorem forLoop_eq_ok_iff (hr : r.Exact n) (hs : s.length ≤ n + 1) (hopen : Announces .forLoop s) :
    forLoop r s = .ok (x, t) ↔ s = x.leaves ++ t ∧ x.Fits (tokenAt 0 t) := by
  constructor
  · exact fits_of_forLoop hr hs hopen
  · rintro ⟨rfl, hfit⟩
    exact forLoop_of_fits hr hs hopen hfit

end Parser

end LuaLayout
