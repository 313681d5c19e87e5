/-
LuaLayout.Proofs.Layout.Reread — other leaves with the same words give the same page.

Leaves that spell the words of a tree that fits are those of a tree that fits as
well, and the two look the same but for comments. The induction follows the tree.
What comes after a part is given by its texts, and after an operand a minus is
never unary, so that no sign is joined there.
-/
import LuaLayout.Proofs.Layout.RereadParts

namespace LuaLayout

open Item (flat)
open Leaf (front)

variable {version : Version} {tidy : Bool} {next : Option Token} {indent : Int} {more : List String}

/-! ## 1. What comes after parts of a block -/

/-- What comes after a statement: the next one, or what comes after them all. -/
theorem statements_front (tidy : Bool) (indent : Int) (blank : Bool) {xs : List Stat}
    (h : StatementsFit next xs)
    (hg : AllGenuine version (statementsLeaves xs)) (hnext : Same next (headOf version more))
    (hminus : more.head? ≠ some "-") :
    Same (front (statementsLeaves xs) next) (headOf version
        (worded tidy (statementsLeaves xs) (statementsLayout false indent blank xs) ++ more)) ∧
      (worded tidy (statementsLeaves xs) (statementsLayout false indent blank xs) ++ more).head? ≠
        some "-" := by
  cases xs with
  | nil => simpa [statementsLeaves, statementsLayout] using ⟨hnext, hminus⟩
  | cons x rest =>
    obtain ⟨hgx, -⟩ := AllGenuine.append_iff.1 hg
    obtain ⟨l, ls, hl, hbegins, hplain, hne⟩ := Stat.begins indent h.2.1 hgx
    obtain ⟨ws, hws⟩ := worded_begins tidy ls hbegins hplain
    have hgl : l.token.Genuine version := hgx l (by simp [hl])
    simp only [statementsLeaves, statementsLayout, List.cons_append, worded_line, worded_append]
    rw [hl, hws]
    exact ⟨same_head hgl hplain, by simpa using hne⟩

theorem branches_front (tidy : Bool) (indent : Int) {bs : List Branch} (h : BranchesFit next bs)
    (hg : AllGenuine version (branchesLeaves bs)) (hnext : Same next (headOf version more))
    (hminus : more.head? ≠ some "-") :
    Same (front (branchesLeaves bs) next) (headOf version
        (worded tidy (branchesLeaves bs) (branchesLayout false indent bs) ++ more)) ∧
      (worded tidy (branchesLeaves bs) (branchesLayout false indent bs) ++ more).head? ≠ some "-" := by
  cases bs with
  | nil => simpa [branchesLeaves, branchesLayout] using ⟨hnext, hminus⟩
  | cons b rest =>
    obtain ⟨word, condition, opening, block⟩ := b
    have hword : word.Says "elseif" := h.1 word rfl
    simp only [branchesLeaves, branchesLayout, Branch.leaves, Branch.layout, List.cons_append,
      worded_closingLine, worded_fixed hword (by decide), Leaf.front_cons, List.head?_cons]
    exact ⟨hword.same (hg word (by simp [branchesLeaves, Branch.leaves])) (by decide), by decide⟩

theorem otherwise_front (tidy : Bool) (indent : Int) {otherwise : Option (Leaf × Block)}
    (h : OtherwiseFits next otherwise)
    (hg : AllGenuine version (otherwiseLeaves otherwise)) (hnext : Same next (headOf version more))
    (hminus : more.head? ≠ some "-") :
    Same (front (otherwiseLeaves otherwise) next) (headOf version
        (worded tidy (otherwiseLeaves otherwise) (otherwiseLayout false indent otherwise) ++ more)) ∧
      (worded tidy (otherwiseLeaves otherwise) (otherwiseLayout false indent otherwise) ++ more).head? ≠
        some "-" := by
  cases otherwise with
  | none => simpa [otherwiseLeaves, otherwiseLayout] using ⟨hnext, hminus⟩
  | some p =>
    obtain ⟨word, block⟩ := p
    simp only [otherwiseLeaves, otherwiseLayout, closeBlock, List.cons_append, List.nil_append,
      worded_closingLine, worded_fixed h.1 (by decide), Leaf.front_cons, List.head?_cons]
    exact ⟨h.1.same (hg word (by simp [otherwiseLeaves])) (by decide), by decide⟩

/-! ## 2. Parts that are read again

Leaves that spell the words of a part, in front of other words, begin with the leaves of a
part that fits and looks the same. What is inside a statement is known to be such a part
when the statement is read. -/

/-- The expression is read again under every limit. -/
def Expr.Rereads (version : Version) (tidy : Bool) (e : Expr) : Prop :=
  ∀ ⦃limit : Int⦄ ⦃next : Option Token⦄ ⦃indent : Int⦄ ⦃folds : Bool⦄ ⦃more : List String⦄
    ⦃leaves : List Leaf⦄, e.Fits limit next → AllGenuine version e.leaves → limit ≤ 13 →
    Passes next (headOf version more) →
    Spelled version folds (worded tidy e.leaves (e.layout false indent) ++ more) leaves →
    ∃ (e' : Expr) (rest : List Leaf), leaves = e'.leaves ++ rest ∧
      e'.Fits limit (front rest none) ∧
      flat (e'.layout false indent) = flat (e.layout false indent) ∧
      Spelled version false more rest

/-- The list of expressions is read again. -/
def Exprs.Rereads (version : Version) (tidy : Bool) (es : Exprs) : Prop :=
  ∀ ⦃next : Option Token⦄ ⦃indent : Int⦄ ⦃folds : Bool⦄ ⦃more : List String⦄ ⦃leaves : List Leaf⦄,
    es.Fits next → AllGenuine version es.leaves → Same next (headOf version more) →
    Spelled version folds (worded tidy es.leaves (es.layout false indent) ++ more) leaves →
    ∃ (es' : Exprs) (rest : List Leaf), leaves = es'.leaves ++ rest ∧
      es'.Fits (front rest none) ∧
      flat (es'.layout false indent) = flat (es.layout false indent) ∧
      Spelled version false more rest

/-- The access is read again, and is of the same kind. -/
def Access.Rereads (version : Version) (tidy : Bool) (a : Access) : Prop :=
  ∀ ⦃next : Option Token⦄ ⦃indent : Int⦄ ⦃folds : Bool⦄ ⦃more : List String⦄ ⦃leaves : List Leaf⦄,
    a.Fits next → AllGenuine version a.leaves → Passes next (headOf version more) →
    Spelled version folds (worded tidy a.leaves (a.layout false indent) ++ more) leaves →
    ∃ (a' : Access) (rest : List Leaf), leaves = a'.leaves ++ rest ∧ a'.Fits (front rest none) ∧
      (a'.head.Alike a.head ∧ a'.kind = a.kind) ∧
      flat (a'.layout false indent) = flat (a.layout false indent) ∧
      Spelled version false more rest

/-- Further targets of an assignment are read again, up to a text that ends expressions. -/
def CommaAccessesReread (version : Version) (tidy : Bool) (xs : List (Leaf × Access)) : Prop :=
  ∀ ⦃next : Option Token⦄ ⦃indent : Int⦄ ⦃text : String⦄ ⦃more : List String⦄ ⦃leaves : List Leaf⦄,
    text ∈ enders → CommaAccessesFit next xs → AllGenuine version (commaAccessesLeaves xs) →
    Spelled version false (worded tidy (commaAccessesLeaves xs)
      (commaAccessesLayout false indent xs) ++ text :: more) leaves →
    ∃ (xs' : List (Leaf × Access)) (rest : List Leaf), leaves = commaAccessesLeaves xs' ++ rest ∧
      CommaAccessesFit (front rest none) xs' ∧
      flat (commaAccessesLayout false indent xs') = flat (commaAccessesLayout false indent xs) ∧
      Spelled version false (text :: more) rest

/-- The block is read again. -/
def Block.Rereads (version : Version) (tidy : Bool) (b : Block) : Prop :=
  ∀ ⦃next : Option Token⦄ ⦃indent : Int⦄ ⦃folds : Bool⦄ ⦃more : List String⦄ ⦃leaves : List Leaf⦄,
    b.Fits next → AllGenuine version b.leaves → Same next (headOf version more) →
    more.head? ≠ some "-" →
    Spelled version folds (worded tidy b.leaves (b.layout false indent) ++ more) leaves →
    ∃ (b' : Block) (rest : List Leaf) (folds' : Bool), leaves = b'.leaves ++ rest ∧
      b'.Fits (front rest none) ∧
      flat (b'.layout false indent) = flat (b.layout false indent) ∧
      Spelled version folds' more rest

/-- The function is read again. -/
def Body.Rereads (version : Version) (tidy : Bool) (b : Body) : Prop :=
  ∀ ⦃indent : Int⦄ ⦃folds : Bool⦄ ⦃more : List String⦄ ⦃leaves : List Leaf⦄,
    b.Fits → AllGenuine version b.leaves →
    Spelled version folds (worded tidy b.leaves (b.layout false indent) ++ more) leaves →
    ∃ (b' : Body) (rest : List Leaf), leaves = b'.leaves ++ rest ∧ b'.Fits ∧
      flat (b'.layout false indent) = flat (b.layout false indent) ∧
      Spelled version false more rest

/-- The branch is read again, with any word that it may begin with. -/
def Branch.Rereads (version : Version) (tidy : Bool) (b : Branch) : Prop :=
  ∀ ⦃next : Option Token⦄ ⦃indent : Int⦄ ⦃text : String⦄ ⦃folds : Bool⦄ ⦃more : List String⦄
    ⦃leaves : List Leaf⦄, text ∈ fixedTexts → (∀ l ∈ b.leaves.head?, l.Says text) → b.Fits next →
    AllGenuine version b.leaves → Same next (headOf version more) → more.head? ≠ some "-" →
    Spelled version folds (worded tidy b.leaves (b.layout false indent text) ++ more) leaves →
    ∃ (b' : Branch) (rest : List Leaf) (folds' : Bool), leaves = b'.leaves ++ rest ∧
      b'.Fits (front rest none) ∧
      (∃ l ls l' ls', b.leaves = l :: ls ∧ b'.leaves = l' :: ls' ∧ l'.Alike l) ∧
      flat (b'.layout false indent text) = flat (b.layout false indent text) ∧
      Spelled version folds' more rest

/-- Further branches are read again. -/
def BranchesReread (version : Version) (tidy : Bool) (bs : List Branch) : Prop :=
  ∀ ⦃next : Option Token⦄ ⦃indent : Int⦄ ⦃folds : Bool⦄ ⦃more : List String⦄ ⦃leaves : List Leaf⦄,
    BranchesFit next bs → AllGenuine version (branchesLeaves bs) →
    Same next (headOf version more) → more.head? ≠ some "-" →
    Spelled version folds
      (worded tidy (branchesLeaves bs) (branchesLayout false indent bs) ++ more) leaves →
    ∃ (bs' : List Branch) (rest : List Leaf) (folds' : Bool), leaves = branchesLeaves bs' ++ rest ∧
      BranchesFit (front rest none) bs' ∧
      flat (branchesLayout false indent bs') = flat (branchesLayout false indent bs) ∧
      Spelled version folds' more rest

/-- The last branch is read again. -/
def OtherwiseRereads (version : Version) (tidy : Bool) (o : Option (Leaf × Block)) : Prop :=
  ∀ ⦃next : Option Token⦄ ⦃indent : Int⦄ ⦃folds : Bool⦄ ⦃more : List String⦄ ⦃leaves : List Leaf⦄,
    OtherwiseFits next o → AllGenuine version (otherwiseLeaves o) →
    Same next (headOf version more) → more.head? ≠ some "-" →
    Spelled version folds
      (worded tidy (otherwiseLeaves o) (otherwiseLayout false indent o) ++ more) leaves →
    ∃ (o' : Option (Leaf × Block)) (rest : List Leaf) (folds' : Bool),
      leaves = otherwiseLeaves o' ++ rest ∧ OtherwiseFits (front rest none) o' ∧
      flat (otherwiseLayout false indent o') = flat (otherwiseLayout false indent o) ∧
      Spelled version folds' more rest

/-- The step of a loop is read again. -/
def StepRereads (version : Version) (tidy : Bool) (s : Option (Leaf × Expr)) : Prop :=
  ∀ ⦃next : Option Token⦄ ⦃indent : Int⦄ ⦃more : List String⦄ ⦃leaves : List Leaf⦄,
    StepFits next s → AllGenuine version (stepLeaves s) → Passes next (headOf version more) →
    Spelled version false (worded tidy (stepLeaves s) (stepLayout false indent s) ++ more) leaves →
    ∃ (s' : Option (Leaf × Expr)) (rest : List Leaf), leaves = stepLeaves s' ++ rest ∧
      StepFits (front rest none) s' ∧
      flat (stepLayout false indent s') = flat (stepLayout false indent s) ∧
      Spelled version false more rest

/-- The statement is read again, and declares a function if it did. -/
def Stat.Rereads (version : Version) (tidy : Bool) (x : Stat) : Prop :=
  ∀ ⦃next : Option Token⦄ ⦃indent : Int⦄ ⦃folds : Bool⦄ ⦃more : List String⦄ ⦃leaves : List Leaf⦄,
    x.Fits next → AllGenuine version x.leaves → Same next (headOf version more) →
    more.head? ≠ some "-" →
    Spelled version folds (worded tidy x.leaves (x.layout false indent) ++ more) leaves →
    ∃ (x' : Stat) (rest : List Leaf) (folds' : Bool), leaves = x'.leaves ++ rest ∧
      x'.Fits (front rest none) ∧
      (Same (front x.leaves none) (front x'.leaves none) ∧
        x'.declaresFunction = x.declaresFunction) ∧
      flat (x'.layout false indent) = flat (x.layout false indent) ∧
      Spelled version folds' more rest

/-! ## 3. Statements from their parts -/

section

variable {word name equals comma opening closing between : Leaf} {start stop condition : Expr}
  {step : Option (Leaf × Expr)} {block : Block} {values : Exprs}

/-- A loop with its condition in front. -/
theorem whileLoop_rereads
    (hreadc : condition.Rereads version tidy) (hreadb : block.Rereads version tidy) :
    (Stat.whileLoop word condition opening block closing).Rereads version tidy := by
  intro next indent folds more leaves h hg _ _ hs
  obtain ⟨hword, hcondition, hopening, hblock, hclosing⟩ := h
  simp only [Stat.leaves, AllGenuine.cons_iff, AllGenuine.append_iff] at hg
  obtain ⟨hgword, hgcondition, hgopening, hgblock, hgclosing, -⟩ := hg
  have hsaid : word.Says "while" := hword.saying
  simp only [Stat.leaves, Stat.layout, closeBlock, List.cons_append, worded_fixed hsaid (by decide),
    worded_space, worded_append, worded_fixed hopening (by decide), worded_closingLine,
    worded_fixed hclosing (by decide), worded_nil, List.append_assoc, List.nil_append] at hs
  obtain ⟨word', rest, rfl, hword', hs⟩ := hs.fixed hsaid hgword (by decide)
  obtain ⟨condition', rest, rfl, hcondition', hflatc, hs⟩ :=
    hreadc hcondition hgcondition (by decide) (passes_ender (by decide)) hs
  obtain ⟨opening', rest, rfl, hopening', hs⟩ := hs.fixed hopening hgopening (by decide)
  obtain ⟨block', rest, _, rfl, hblock', hflat, hs⟩ :=
    hreadb hblock hgblock (hclosing.same hgclosing (by decide)) (by simp) hs
  obtain ⟨closing', rest, rfl, hclosing', hs⟩ := hs.fixed hclosing hgclosing (by decide)
  refine ⟨.whileLoop word' condition' opening' block' closing', rest, _, by simp [Stat.leaves],
    ⟨hword'.opens hword, hcondition', hopening'.saying hopening, hblock',
      hclosing'.saying hclosing⟩, ⟨hword'.same, rfl⟩, ?_, hs⟩
  simp only [Stat.layout, closeBlock, List.cons_append, Item.flat_wordAs, Item.flat_space,
    Item.flat_append, Item.flat_closingLine, Item.flat_nil, hflatc, hflat]

/-- A loop with its condition behind. -/
theorem repeatLoop_rereads
    (hreadb : block.Rereads version tidy) (hreadc : condition.Rereads version tidy) :
    (Stat.repeatLoop word block closing condition).Rereads version tidy := by
  intro next indent folds more leaves h hg hnext _ hs
  obtain ⟨hword, hblock, hclosing, hcondition⟩ := h
  simp only [Stat.leaves, AllGenuine.cons_iff, AllGenuine.append_iff] at hg
  obtain ⟨hgword, hgblock, hgclosing, hgcondition⟩ := hg
  have hsaid : word.Says "repeat" := hword.saying
  simp only [Stat.leaves, Stat.layout, closeBlock, List.cons_append, worded_fixed hsaid (by decide),
    worded_space, worded_append, worded_closingLine, worded_fixed hclosing (by decide),
    List.append_assoc, List.nil_append] at hs
  obtain ⟨word', rest, rfl, hword', hs⟩ := hs.fixed hsaid hgword (by decide)
  obtain ⟨block', rest, _, rfl, hblock', hflat, hs⟩ :=
    hreadb hblock hgblock (hclosing.same hgclosing (by decide)) (by simp) hs
  obtain ⟨closing', rest, rfl, hclosing', hs⟩ := hs.fixed hclosing hgclosing (by decide)
  obtain ⟨condition', rest, rfl, hcondition', hflatc, hs⟩ :=
    hreadc hcondition hgcondition (by decide) hnext.passes hs
  refine ⟨.repeatLoop word' block' closing' condition', rest, _, by simp [Stat.leaves],
    ⟨hword'.opens hword, hblock', hclosing'.saying hclosing, hcondition'⟩,
    ⟨hword'.same, rfl⟩, ?_, hs⟩
  simp only [Stat.layout, closeBlock, List.cons_append, Item.flat_wordAs, Item.flat_space,
    Item.flat_append, Item.flat_closingLine, Item.flat_nil, hflatc, hflat]

/-- A condition with all its branches. -/
theorem conditional_rereads {first : Branch} {others : List Branch}
    {otherwise : Option (Leaf × Block)}
    (hreadf : first.Rereads version tidy) (hreads : BranchesReread version tidy others)
    (hreado : OtherwiseRereads version tidy otherwise) :
    (Stat.conditional first others otherwise closing).Rereads version tidy := by
  intro next indent folds more leaves h hg _ _ hs
  obtain ⟨hopens, hfirst, hothers, hotherwise, hclosing⟩ := h
  simp only [Stat.leaves, AllGenuine.cons_iff, AllGenuine.append_iff] at hg
  obtain ⟨hgfirst, hgothers, hgotherwise, hgclosing, -⟩ := hg
  have hsaid : ∀ l ∈ first.leaves.head?, l.Says "if" := fun l hl => (hopens l hl).saying
  simp only [Stat.leaves, Stat.layout, closeBlock, List.cons_append, worded_append,
    worded_closingLine, worded_fixed hclosing (by decide), worded_nil, List.append_assoc,
    List.nil_append] at hs
  have hend : Same (some closing.token) (headOf version ("end" :: more)) :=
    hclosing.same hgclosing (by decide)
  obtain ⟨hlast, hlastMinus⟩ := otherwise_front tidy indent hotherwise
    hgotherwise hend (by simp)
  obtain ⟨hafter, hafterMinus⟩ := branches_front tidy indent hothers hgothers
    hlast hlastMinus
  obtain ⟨first', rest, _, rfl, hfirst', hheads, hflatf, hs⟩ :=
    hreadf (by decide) hsaid hfirst hgfirst
      (by rwa [Leaf.front_append]) hafterMinus hs
  obtain ⟨others', rest, _, rfl, hothers', hflat, hs⟩ :=
    hreads hothers hgothers hlast hlastMinus hs
  obtain ⟨otherwise', rest, _, rfl, hotherwise', hflato, hs⟩ :=
    hreado hotherwise hgotherwise hend (by simp) hs
  obtain ⟨closing', rest, rfl, hclosing', hs⟩ := hs.fixed hclosing hgclosing (by decide)
  obtain ⟨l, ls, l', ls', hl, hl', halike⟩ := hheads
  refine ⟨.conditional first' others' otherwise' closing', rest, _, by simp [Stat.leaves],
    ⟨?_, ?_, ?_, hotherwise', hclosing'.saying hclosing⟩, ⟨?_, rfl⟩, ?_, hs⟩
  · rw [hl']
    rintro _ ⟨⟩
    exact halike.opens (hopens l (by simp [hl]))
  · simpa only [Leaf.front_append, Leaf.front_cons] using hfirst'
  · simpa only [Leaf.front_append, Leaf.front_cons] using hothers'
  · simp only [Stat.leaves, hl, hl', List.cons_append, Leaf.front_cons]
    exact halike.same
  · simp only [Stat.layout, closeBlock, Item.flat_append, hflatf, hflat, hflato,
      Item.flat_closingLine, Item.flat_wordAs, Item.flat_nil]

/-- A loop that counts, with a step or without one. -/
theorem countingLoop_rereads
    (hreads : start.Rereads version tidy) (hreadt : stop.Rereads version tidy)
    (hreadp : StepRereads version tidy step) (hreadb : block.Rereads version tidy) :
    (Stat.countingLoop word name equals start comma stop step opening block closing).Rereads
      version tidy := by
  intro next indent folds more leaves h hg _ _ hs
  obtain ⟨hword, hname, hequals, hstart, hcomma, hstop, hstep, hopening, hblock, hclosing⟩ := h
  simp only [Stat.leaves, AllGenuine.cons_iff, AllGenuine.append_iff] at hg
  obtain ⟨hgword, hgname, hgequals, hgstart, hgcomma, hgstop, hgstep, hgopening, hgblock,
    hgclosing, -⟩ := hg
  have hsaid : word.Says "for" := hword.saying
  simp only [Stat.leaves, Stat.layout, closeBlock, List.cons_append, worded_fixed hsaid (by decide),
    worded_space, worded_leaf, worded_fixed hequals (by decide), worded_append,
    worded_fixed hcomma (by decide), worded_fixed hopening (by decide), worded_closingLine,
    worded_fixed hclosing (by decide), worded_nil, List.append_assoc, List.nil_append] at hs
  obtain ⟨word', rest, rfl, hword', hs⟩ := hs.fixed hsaid hgword (by decide)
  obtain ⟨name', rest, rfl, hname', hs⟩ := hs.name hname hgname
  obtain ⟨equals', rest, rfl, hequals', hs⟩ := hs.fixed hequals hgequals (by decide)
  obtain ⟨start', rest, rfl, hstart', hflats, hs⟩ :=
    hreads hstart hgstart (by decide) (passes_ender (by decide)) hs
  obtain ⟨comma', rest, rfl, hcomma', hs⟩ := hs.fixed hcomma hgcomma (by decide)
  obtain ⟨stop', rest, rfl, hstop', hflatt, hs⟩ :=
    hreadt hstop hgstop (by decide) (step_passes hstep (by decide)) hs
  obtain ⟨step', rest, rfl, hstep', hflatp, hs⟩ :=
    hreadp hstep hgstep (passes_ender (by decide)) hs
  obtain ⟨opening', rest, rfl, hopening', hs⟩ := hs.fixed hopening hgopening (by decide)
  obtain ⟨block', rest, _, rfl, hblock', hflat, hs⟩ :=
    hreadb hblock hgblock (hclosing.same hgclosing (by decide)) (by simp) hs
  obtain ⟨closing', rest, rfl, hclosing', hs⟩ := hs.fixed hclosing hgclosing (by decide)
  rw [Leaf.front_append] at hstop'
  refine ⟨.countingLoop word' name' equals' start' comma' stop' step' opening' block' closing',
    rest, _, by simp [Stat.leaves], ⟨hword'.opens hword, hname'.isName hname,
      hequals'.saying hequals, hstart', hcomma'.saying hcomma, hstop', hstep',
      hopening'.saying hopening, hblock', hclosing'.saying hclosing⟩, ⟨hword'.same, rfl⟩, ?_, hs⟩
  simp only [Stat.layout, closeBlock, List.cons_append, Item.flat_wordAs, Item.flat_space,
    Item.flat_word, Item.flat_append, Item.flat_closingLine, Item.flat_nil, hname'.text, hflats,
    hflatt, hflatp, hflat]

/-- A loop over the values of expressions. -/
theorem iteration_rereads {others : List (Leaf × Leaf)}
    (hreadv : values.Rereads version tidy) (hreadb : block.Rereads version tidy) :
    (Stat.iteration word name others between values opening block closing).Rereads
      version tidy := by
  intro next indent folds more leaves h hg _ _ hs
  obtain ⟨hword, hname, hothers, hbetween, hvalues, hopening, hblock, hclosing⟩ := h
  simp only [Stat.leaves, AllGenuine.cons_iff, AllGenuine.append_iff] at hg
  obtain ⟨hgword, hgname, hgothers, hgbetween, hgvalues, hgopening, hgblock, hgclosing, -⟩ := hg
  have hsaid : word.Says "for" := hword.saying
  simp only [Stat.leaves, Stat.layout, closeBlock, List.cons_append, worded_fixed hsaid (by decide),
    worded_space, worded_leaf, worded_append, worded_fixed hbetween (by decide), commaNames_eq,
    worded_fixed hopening (by decide), worded_closingLine, worded_fixed hclosing (by decide),
    worded_nil, List.append_assoc, List.nil_append] at hs
  obtain ⟨word', rest, rfl, hword', hs⟩ := hs.fixed hsaid hgword (by decide)
  obtain ⟨name', rest, rfl, hname', hs⟩ := hs.name hname hgname
  obtain ⟨others', rest, _, rfl, halike, hflatn, hs⟩ :=
    pairs_reread (by decide) (.inr rfl) hothers.sorts hgothers hs
  obtain ⟨between', rest, rfl, hbetween', hs⟩ := hs.fixed hbetween hgbetween (by decide)
  obtain ⟨values', rest, rfl, hvalues', hflatv, hs⟩ :=
    hreadv hvalues hgvalues (hopening.same hgopening (by decide)) hs
  obtain ⟨opening', rest, rfl, hopening', hs⟩ := hs.fixed hopening hgopening (by decide)
  obtain ⟨block', rest, _, rfl, hblock', hflat, hs⟩ :=
    hreadb hblock hgblock (hclosing.same hgclosing (by decide)) (by simp) hs
  obtain ⟨closing', rest, rfl, hclosing', hs⟩ := hs.fixed hclosing hgclosing (by decide)
  refine ⟨.iteration word' name' others' between' values' opening' block' closing', rest, _,
    by simp [Stat.leaves], ⟨hword'.opens hword, hname'.isName hname, halike.namesFit hothers,
      hbetween'.saying hbetween, hvalues', hopening'.saying hopening, hblock',
      hclosing'.saying hclosing⟩, ⟨hword'.same, rfl⟩, ?_, hs⟩
  simp only [Stat.layout, closeBlock, List.cons_append, Item.flat_wordAs, Item.flat_space,
    Item.flat_word, Item.flat_append, Item.flat_closingLine, Item.flat_nil, commaNames_eq,
    hname'.text, hflatn, hflatv, hflat]

/-- A function under a name, the name of a field or that of a method. -/
theorem function_rereads {path : List (Leaf × Leaf)} {method : Option (Leaf × Leaf)} {body : Body}
    (hreadb : body.Rereads version tidy) :
    (Stat.function word name path method body).Rereads version tidy := by
  intro next indent folds more leaves h hg _ _ hs
  obtain ⟨hword, hname, hpath, hmethod, hbody⟩ := h
  simp only [Stat.leaves, AllGenuine.cons_iff, AllGenuine.append_iff] at hg
  obtain ⟨hgword, hgname, hgpath, hgmethod, hgbody⟩ := hg
  rw [← Leaf.ofPairs_toList] at hgmethod
  have hsaid : word.Says "function" := hword.saying
  simp only [Stat.leaves, Stat.layout, path_eq, List.cons_append, worded_fixed hsaid (by decide),
    worded_space, worded_leaf, worded_append, List.append_assoc, ← Leaf.ofPairs_toList] at hs
  obtain ⟨word', rest, rfl, hword', hs⟩ := hs.fixed hsaid hgword (by decide)
  obtain ⟨name', rest, rfl, hname', hs⟩ := hs.name hname hgname
  obtain ⟨path', rest, _, rfl, halike, hflatp, hs⟩ :=
    pairs_reread (by decide) (.inl rfl) hpath.sorts hgpath hs
  obtain ⟨methods, rest, _, rfl, hmethods, hflatm, hs⟩ :=
    pairs_reread (by decide) (.inl rfl) hmethod.sorts hgmethod hs
  obtain ⟨method', hmethod'⟩ := hmethods.exists_option
  rw [hmethod'] at hmethods hflatm
  obtain ⟨body', rest, rfl, hbody', hflat, hs⟩ := hreadb hbody hgbody hs
  refine ⟨.function word' name' path' method' body', rest, _,
    by simp [Stat.leaves, hmethod', Leaf.ofPairs_toList],
    ⟨hword'.opens hword, hname'.isName hname, halike.namesFit hpath, hmethods.namesFit hmethod,
      hbody'⟩, ⟨hword'.same, rfl⟩, ?_, hs⟩
  simp only [Stat.layout, path_eq, List.cons_append, Item.flat_wordAs, Item.flat_space,
    Item.flat_word, Item.flat_append, hname'.text, hflatp, hflatm, hflat]

/-- Local names without values. -/
theorem localNames_none_rereads {first : LocalName} {others : List (Leaf × LocalName)} :
    (Stat.localNames word first others none).Rereads version tidy := by
  intro next indent folds more leaves h hg hnext hminus hs
  obtain ⟨hword, hfunction, hfirst, hothers, hequals⟩ := h
  simp only [Stat.leaves, AllGenuine.cons_iff, AllGenuine.append_iff] at hg
  obtain ⟨hgword, hgfirst, hgothers⟩ := hg
  have hsaid : word.Says "local" := hword.saying
  simp only [Stat.leaves, Stat.layout, List.cons_append, worded_fixed hsaid (by decide),
    worded_space, worded_append, List.append_assoc] at hs
  obtain ⟨hafter, -⟩ := LocalName.more_front tidy hothers hgothers hnext hminus
  obtain ⟨word', rest, rfl, hword', hs⟩ := hs.fixed hsaid hgword (by decide)
  obtain ⟨first', rest, _, rfl, hfirst', hname', hflatf, hs⟩ :=
    LocalName.reread hfirst hgfirst hafter hs
  obtain ⟨others', rest, _, rfl, hothers', hflat, hs⟩ :=
    LocalName.more_reread hothers hgothers hnext hminus hs
  rw [Leaf.front_append] at hfirst'
  have hfront := hs.front_same fun hhead => absurd hhead hminus
  refine ⟨.localNames word' first' others' none, rest, _, by simp [Stat.leaves],
    ⟨hword'.opens hword, fun hsaid => hfunction (hname'.text.symm.trans hsaid), hfirst', hothers',
      hfront.noneOf (hnext.noneOf hequals)⟩, ⟨hword'.same, rfl⟩, ?_, hs⟩
  simp only [Stat.layout, List.cons_append, Item.flat_wordAs, Item.flat_space, Item.flat_append,
    hflatf, hflat]

/-- Local names with values. -/
theorem localNames_some_rereads {first : LocalName} {others : List (Leaf × LocalName)}
    (hreadv : values.Rereads version tidy) :
    (Stat.localNames word first others (some (equals, values))).Rereads version tidy := by
  intro next indent folds more leaves h hg hnext _ hs
  obtain ⟨hword, hfunction, hfirst, hothers, hequals, hvalues⟩ := h
  simp only [Stat.leaves, AllGenuine.cons_iff, AllGenuine.append_iff] at hg
  obtain ⟨hgword, hgfirst, hgothers, hgequals, hgvalues⟩ := hg
  have hsaid : word.Says "local" := hword.saying
  simp only [Stat.leaves, Stat.layout, List.cons_append, worded_fixed hsaid (by decide),
    worded_space, worded_append, worded_fixed hequals (by decide), List.append_assoc] at hs
  have hend : Same (some equals.token) (headOf version ("=" ::
    (worded tidy values.leaves (values.layout false indent) ++ more))) :=
      hequals.same hgequals (by decide)
  obtain ⟨hafter, -⟩ := LocalName.more_front tidy hothers hgothers hend (by simp)
  obtain ⟨word', rest, rfl, hword', hs⟩ := hs.fixed hsaid hgword (by decide)
  obtain ⟨first', rest, _, rfl, hfirst', hname', hflatf, hs⟩ :=
    LocalName.reread hfirst hgfirst hafter hs
  obtain ⟨others', rest, _, rfl, hothers', hflat, hs⟩ :=
    LocalName.more_reread hothers hgothers hend (by simp) hs
  obtain ⟨equals', rest, rfl, hequals', hs⟩ := hs.fixed hequals hgequals (by decide)
  obtain ⟨values', rest, rfl, hvalues', hflatv, hs⟩ := hreadv hvalues hgvalues hnext hs
  rw [Leaf.front_append] at hfirst'
  refine ⟨.localNames word' first' others' (some (equals', values')), rest, _,
    by simp [Stat.leaves], ⟨hword'.opens hword,
      fun hsaid => hfunction (hname'.text.symm.trans hsaid), hfirst', hothers',
      hequals'.saying hequals, hvalues'⟩, ⟨hword'.same, rfl⟩, ?_, hs⟩
  simp only [Stat.layout, List.cons_append, Item.flat_wordAs, Item.flat_space, Item.flat_append,
    hflatf, hflat, hflatv]

/-- Values assigned to what can be assigned to. -/
theorem assignment_rereads {first : Access} {others : List (Leaf × Access)}
    (hreadf : first.Rereads version tidy) (hreads : CommaAccessesReread version tidy others)
    (hreadv : values.Rereads version tidy) :
    (Stat.assignment first others equals values).Rereads version tidy := by
  intro next indent folds more leaves h hg hnext _ hs
  obtain ⟨hopens, hfirst, hkind, hothers, hequals, hvalues⟩ := h
  simp only [Stat.leaves, AllGenuine.cons_iff, AllGenuine.append_iff] at hg
  obtain ⟨hgfirst, hgothers, hgequals, hgvalues⟩ := hg
  simp only [Stat.leaves, Stat.layout, worded_append, worded_space,
    worded_fixed hequals (by decide), List.append_assoc, List.cons_append] at hs
  obtain ⟨first', rest, rfl, hfirst', ⟨hhead, hkind'⟩, hflatf, hs⟩ :=
    hreadf hfirst hgfirst (commaAccesses_passes hothers (by decide)) hs
  obtain ⟨others', rest, rfl, hothers', hflat, hs⟩ :=
    hreads (by decide) hothers hgothers hs
  obtain ⟨equals', rest, rfl, hequals', hs⟩ := hs.fixed hequals hgequals (by decide)
  obtain ⟨values', rest, rfl, hvalues', hflatv, hs⟩ := hreadv hvalues hgvalues hnext hs
  rw [Leaf.front_append] at hfirst'
  refine ⟨.assignment first' others' equals' values', rest, _, by simp [Stat.leaves],
    ⟨hhead.opensNone hopens, hfirst', hkind'.trans hkind, hothers', hequals'.saying hequals,
      hvalues'⟩, ⟨?_, rfl⟩, ?_, hs⟩
  · obtain ⟨ls, hl⟩ := first.leaves_eq
    obtain ⟨ls', hl'⟩ := first'.leaves_eq
    simp only [Stat.leaves, hl, hl', List.cons_append, Leaf.front_cons]
    exact hhead.same
  · simp only [Stat.layout, Item.flat_append, Item.flat_space, Item.flat_wordAs, hflatf, hflat,
      hflatv]

end

/-! ## 4. Expressions and statements -/

mutual

theorem Expr.reread : ∀ e : Expr, e.Rereads version tidy
  | .mk operand operations => by
    intro limit next indent folds more leaves h hg hlimit hnext hs
    obtain ⟨hgoperand, hgoperations⟩ := AllGenuine.append_iff.1 hg
    simp only [Expr.leaves, Expr.layout, showGroup, Bool.false_eq_true, if_false, worded_append,
      List.append_assoc] at hs
    have hafter := operations_passes tidy indent h.2 hgoperations hnext
    exact (Operand.reread operand h.1 hgoperand hafter hs).expr hlimit fun hs =>
      operationsReread operations h.2 hgoperations hlimit hnext hs

theorem operationsReread {limit : Int} {next : Option Token} {indent : Int}
    {more : List String} {leaves : List Leaf} :
    ∀ ops : List (Leaf × Expr), OperationsFit limit next ops →
      AllGenuine version (operationsLeaves ops) → limit ≤ 13 → Passes next (headOf version more) →
      Spelled version false
        (worded tidy (operationsLeaves ops) (operationsLayout false indent ops) ++ more) leaves →
      ∃ (ops' : List (Leaf × Expr)) (rest : List Leaf), leaves = operationsLeaves ops' ++ rest ∧
        OperationsFit limit (front rest none) ops' ∧
        flat (operationsLayout false indent ops') = flat (operationsLayout false indent ops) ∧
        Spelled version false more rest
  | [], h, _, _, hnext, hs => by
    simp only [operationsLeaves, operationsLayout, worded_nil, List.nil_append] at hs
    exact ⟨[], leaves, rfl, (hs.passes (fun _ => rfl) hnext).expr _ h, rfl, hs⟩
  | (operator, right) :: ops, h, hg, hlimit, hnext, hs => by
    obtain ⟨⟨powers, hpowers, hright⟩, hops⟩ := h
    simp only [operationsLeaves, AllGenuine.cons_iff, AllGenuine.append_iff] at hg
    obtain ⟨hgoperator, hgright, hgops⟩ := hg
    obtain ⟨hkind, hbinary, -⟩ := binary_operator hpowers
    have hplain := hgoperator.unsign_eq (by simp [hkind])
    have hthirteen : powers.right ≤ 13 := by
      have hall : ∀ p ∈ Powers.table, p.2.right ≤ 13 := by decide
      exact hall _ (mem_table_of_binaryPowers? hbinary).1
    simp only [operationsLeaves, operationsLayout, List.cons_append, worded_space, worded_leaf, hplain,
      worded_append, List.nil_append, List.append_assoc] at hs
    obtain ⟨operator', rest, rfl, hoperator', hs⟩ := hs.take hgoperator hplain fun _ => rfl
    obtain ⟨right', rest, rfl, hright', hflatr, hs⟩ := Expr.reread right hright hgright hthirteen
      (operations_passes tidy indent hops hgops hnext) hs
    obtain ⟨ops', rest, rfl, hops', hflat, hs⟩ := operationsReread ops hops hgops hlimit hnext hs
    rw [Leaf.front_append] at hright'
    refine ⟨(operator', right') :: ops', rest, by simp [operationsLeaves],
      ⟨⟨powers, (hoperator'.congr fun _ => rfl).trans hpowers, hright'⟩, hops'⟩, ?_, hs⟩
    simp only [operationsLayout, List.cons_append, Item.flat_space, Item.flat_word, Item.flat_append,
      hoperator'.text, hflatr, hflat]

theorem Operand.reread {next : Option Token} {indent : Int} {folds : Bool} {more : List String}
    {leaves : List Leaf} :
    ∀ o : Operand, o.Fits next → AllGenuine version o.leaves → Passes next (headOf version more) →
      Spelled version folds (worded tidy o.leaves (o.layout false indent) ++ more) leaves →
      o.Rereads version indent more leaves
  | .unary operator argument, h, hg, hnext, hs => by
    obtain ⟨hunary, hargument⟩ := h
    obtain ⟨hgoperator, hgargument⟩ := AllGenuine.cons_iff.1 hg
    have hkind : operator.token.kind = .operator := by
      simp only [Parser.isUnary, Bool.and_eq_true, beq_iff_eq] at hunary
      exact hunary.1
    have hplain := hgoperator.unsign_eq (by simp [hkind])
    simp only [Operand.leaves, Operand.layout, List.cons_append, worded_leaf, hplain, worded_spaceIf,
      List.nil_append] at hs
    rcases hs.cases_cons with ⟨l, rest, rfl, hbare, hs'⟩ |
      ⟨hminus, l, number, texts, rest, rfl, hmore, hnumber, hunsign, hbare, hs'⟩
    · have hl : l.Alike operator := by
        have hsame : Same (some operator.token) (headOf version (operator.token.text :: more)) :=
          same_head hgoperator hplain
        exact hbare.trans (Option.some.inj hsame)
      obtain ⟨argument', rest, rfl, hargument', hflat, hrest⟩ :=
        Expr.reread argument hargument hgargument (by decide) hnext hs'
      have hspace := Expr.unarySpace_eq hargument hargument' hgargument
        (AllGenuine.append_iff.1 (AllGenuine.cons_iff.1 hs.genuine).2).1 hflat
      have hleaves : l :: (argument'.leaves ++ rest) = (Operand.unary l argument').leaves ++ rest := rfl
      refine .of hleaves ⟨(hl.congr fun _ => rfl).trans hunary, hargument'⟩ ?_ hrest
      simp only [Operand.layout, List.cons_append, Item.flat_word, Item.flat_append, Item.flat_spaceIf,
        hl.text, hspace, hflat]
    · -- The minus belongs to the number that the argument begins with.
      obtain ⟨operand, operations⟩ := argument
      obtain ⟨hoperand, hoperations⟩ := hargument
      obtain ⟨hgoperand, hgoperations⟩ := AllGenuine.append_iff.1 hgargument
      simp only [Expr.leaves, Expr.layout, showGroup, Bool.false_eq_true, if_false, worded_append,
        List.append_assoc] at hmore
      exact .joined hoperand hgoperand hmore hminus hnumber hunsign hbare hs' fun hs =>
        operationsReread operations hoperations hgoperations (by decide) hnext hs
  | .literal value, h, hg, _, hs => by
    simp only [Operand.leaves, Operand.layout, worded_leaf, worded_nil, List.append_nil] at hs
    exact .literal h (AllGenuine.cons_iff.1 hg).1 hs
  | .table fields, h, hg, _, hs => by
    obtain ⟨fields', rest, rfl, hfields', hhead, hflat, hs⟩ := Table.reread fields h.2 hg hs
    have hleaves : fields'.leaves ++ rest = (Operand.table fields').leaves ++ rest := rfl
    exact .of hleaves ⟨hhead.isSymbol h.1, hfields'⟩ hflat hs
  | .function word body, h, hg, _, hs => by
    obtain ⟨hgword, hgbody⟩ := AllGenuine.cons_iff.1 hg
    have hword : word.Says "function" := (Token.isKeyword_iff.1 h.1).2
    simp only [Operand.leaves, Operand.layout, worded_fixed hword, List.cons_append] at hs
    obtain ⟨word', rest, rfl, hword', hs⟩ := hs.fixed hword hgword
    obtain ⟨body', rest, rfl, hbody', hflat, hs⟩ := Body.reread body h.2 hgbody hs
    have hleaves : word' :: (body'.leaves ++ rest) = (Operand.function word' body').leaves ++ rest := rfl
    refine .of hleaves ⟨hword'.isWord h.1, hbody'⟩ ?_ hs
    simp only [Operand.layout, Item.flat_wordAs, hflat]
  | .access path, h, hg, hnext, hs => by
    obtain ⟨path', rest, rfl, hpath', -, hflat, hs⟩ := Access.reread path h hg hnext hs
    have hleaves : path'.leaves ++ rest = (Operand.access path').leaves ++ rest := rfl
    exact .of hleaves hpath' hflat hs

theorem Access.reread : ∀ a : Access, a.Rereads version tidy
  | .mk root suffixes => by
    intro next indent folds more leaves h hg hnext hs
    obtain ⟨hgroot, hgsuffixes⟩ := AllGenuine.append_iff.1 hg
    simp only [Access.leaves, Access.layout, worded_append, List.append_assoc] at hs
    obtain ⟨root', rest, rfl, hroot', ⟨hhead, hkind⟩, hflatr, hs⟩ := Root.reread root h.1 hgroot hs
    obtain ⟨suffixes', rest, rfl, hsuffixes', hkinds, hflat, hs⟩ :=
      suffixesReread suffixes h.2 hgsuffixes hnext hs
    refine ⟨.mk root' suffixes', rest, by simp [Access.leaves], ⟨hroot', hsuffixes'⟩,
      ⟨hhead _ _, ?_⟩, ?_, hs⟩
    · simp only [Access.kind, ← List.getLast?_map, hkinds, hkind]
    · simp only [Access.layout, Item.flat_append, hflatr, hflat]

theorem Root.reread {indent : Int} {folds : Bool} {more : List String} {leaves : List Leaf} :
    ∀ r : Root, r.Fits → AllGenuine version r.leaves →
      Spelled version folds (worded tidy r.leaves (r.layout false indent) ++ more) leaves →
      ∃ (r' : Root) (rest : List Leaf), leaves = r'.leaves ++ rest ∧ r'.Fits ∧
        ((∀ xs xs', (Access.mk r' xs').head.Alike (Access.mk r xs).head) ∧ r'.kind = r.kind) ∧
        flat (r'.layout false indent) = flat (r.layout false indent) ∧
        Spelled version false more rest
  | .name name, h, hg, hs => by
    simp only [Root.leaves, Root.layout, worded_leaf, worded_nil, List.append_nil] at hs
    obtain ⟨name', rest, rfl, hname', hs⟩ := hs.name h (AllGenuine.cons_iff.1 hg).1
    refine ⟨.name name', rest, rfl, hname'.isName h, ⟨fun _ _ => hname', rfl⟩, ?_, hs⟩
    simp only [Root.layout, Item.flat_word, hname'.text]
  | .group opening inner closing, h, hg, hs => by
    obtain ⟨hopening, hinner, hclosing⟩ := h
    simp only [Root.leaves, AllGenuine.cons_iff, AllGenuine.append_iff] at hg
    obtain ⟨hgopening, hginner, hgclosing, -⟩ := hg
    have hsaid : opening.Says "(" := (Token.isOperator_iff.1 hopening).2
    simp only [Root.leaves, Root.layout, List.cons_append, worded_fixed hsaid, worded_append,
      worded_fixed hclosing, worded_nil, List.append_assoc, List.nil_append] at hs
    obtain ⟨opening', rest, rfl, hopening', hs⟩ := hs.fixed hsaid hgopening
    obtain ⟨inner', rest, rfl, hinner', hflat, hs⟩ :=
      Expr.reread inner hinner hginner (by decide) (passes_ender (by decide)) hs
    obtain ⟨closing', rest, rfl, hclosing', hs⟩ := hs.closing hclosing hgclosing
    refine ⟨.group opening' inner' closing', rest, by simp [Root.leaves],
      ⟨hopening'.isSymbol hopening, hinner', hclosing'.saying hclosing⟩,
      ⟨fun _ _ => hopening', rfl⟩, ?_, hs⟩
    simp only [Root.layout, List.cons_append, Item.flat_wordAs, Item.flat_append, hflat, Item.flat_nil]

theorem suffixesReread {next : Option Token} {indent : Int} {more : List String}
    {leaves : List Leaf} :
    ∀ xs : List Suffix, SuffixesFit next xs → AllGenuine version (suffixesLeaves xs) →
      Passes next (headOf version more) →
      Spelled version false
        (worded tidy (suffixesLeaves xs) (suffixesLayout false indent xs) ++ more) leaves →
      ∃ (xs' : List Suffix) (rest : List Leaf), leaves = suffixesLeaves xs' ++ rest ∧
        SuffixesFit (front rest none) xs' ∧ xs'.map Suffix.kind = xs.map Suffix.kind ∧
        flat (suffixesLayout false indent xs') = flat (suffixesLayout false indent xs) ∧
        Spelled version false more rest
  | [], h, _, hnext, hs => by
    simp only [suffixesLeaves, suffixesLayout, worded_nil, List.nil_append] at hs
    exact ⟨[], leaves, rfl, (hs.passes (fun _ => rfl) hnext).access h, rfl, rfl, hs⟩
  | x :: xs, h, hg, hnext, hs => by
    obtain ⟨hgx, hgxs⟩ := AllGenuine.append_iff.1 hg
    simp only [suffixesLeaves, suffixesLayout, worded_append, List.append_assoc] at hs
    obtain ⟨x', rest, rfl, hx', hkind, hflatx, hs⟩ := Suffix.reread x h.1 hgx hs
    obtain ⟨xs', rest, rfl, hxs', hkinds, hflat, hs⟩ := suffixesReread xs h.2 hgxs hnext hs
    refine ⟨x' :: xs', rest, by simp [suffixesLeaves], ⟨hx', hxs'⟩, by simp [hkind, hkinds], ?_, hs⟩
    simp only [suffixesLayout, Item.flat_append, hflatx, hflat]

theorem Suffix.reread {indent : Int} {folds : Bool} {more : List String} {leaves : List Leaf} :
    ∀ x : Suffix, x.Fits → AllGenuine version x.leaves →
      Spelled version folds (worded tidy x.leaves (x.layout false indent) ++ more) leaves →
      ∃ (x' : Suffix) (rest : List Leaf), leaves = x'.leaves ++ rest ∧ x'.Fits ∧ x'.kind = x.kind ∧
        flat (x'.layout false indent) = flat (x.layout false indent) ∧
        Spelled version false more rest
  | .text string, h, hg, hs => by
    have hgstring := (AllGenuine.cons_iff.1 hg).1
    have hkind : string.token.kind = .string := h
    have hplain := hgstring.unsign_eq (by simp [hkind])
    simp only [Suffix.leaves, Suffix.layout, worded_space, worded_leaf, hplain, worded_nil,
      List.append_nil] at hs
    obtain ⟨string', rest, rfl, hstring', hs⟩ := hs.take hgstring hplain fun heq =>
      absurd heq (hgstring.ne_minus (by simp [hkind]))
    have hfalse : foldsAfter (some string.token) = false := by simp [foldsAfter, hkind]
    rw [hfalse] at hs
    refine ⟨.text string', rest, rfl, hstring'.kind.trans h, rfl, ?_, hs⟩
    simp only [Suffix.layout, Item.flat_space, Item.flat_word, hstring'.text]
  | .member separator name, h, hg, hs => by
    simp only [Suffix.leaves, AllGenuine.cons_iff] at hg
    obtain ⟨hgseparator, hgname, -⟩ := hg
    have hfixed : unsign separator.token.text = [separator.token.text] ∧ separator.token.text ≠ "-" := by
      rcases h.1 with hs | hs <;> rw [(Token.isOperator_iff.1 hs).2] <;>
        exact unsign_fixed (by decide)
    simp only [Suffix.leaves, Suffix.layout, worded_leaf, hfixed.1, worded_nil, List.append_nil,
      List.cons_append, List.nil_append] at hs
    obtain ⟨separator', rest, rfl, hseparator', hs⟩ := hs.take hgseparator hfixed.1 fun heq =>
      absurd heq hfixed.2
    obtain ⟨name', rest, rfl, hname', hs⟩ := hs.name h.2 hgname
    refine ⟨.member separator' name', rest, rfl,
      ⟨h.1.imp hseparator'.isSymbol hseparator'.isSymbol, hname'.isName h.2⟩, rfl, ?_, hs⟩
    simp only [Suffix.layout, Item.flat_word, hseparator'.text, hname'.text]
  | .index opening key closing, h, hg, hs => by
    obtain ⟨hopening, hkey, hclosing⟩ := h
    simp only [Suffix.leaves, AllGenuine.cons_iff, AllGenuine.append_iff] at hg
    obtain ⟨hgopening, hgkey, hgclosing, -⟩ := hg
    have hsaid : opening.Says "[" := (Token.isOperator_iff.1 hopening).2
    simp only [Suffix.leaves, Suffix.layout, List.cons_append, List.append_assoc, worded_fixed hsaid,
      worded_spaceIf] at hs
    simp only [worded_append, worded_spaceIf, worded_fixed hclosing, worded_nil, List.append_assoc,
      List.cons_append, List.nil_append] at hs
    obtain ⟨opening', rest, rfl, hopening', hs⟩ := hs.fixed hsaid hgopening
    obtain ⟨key', rest, rfl, hkey', hflat, hrest⟩ :=
      Expr.reread key hkey hgkey (by decide) (passes_ender (by decide)) hs
    have hlong := Expr.startsWithLongString_eq hkey hkey' hgkey
      (AllGenuine.append_iff.1 hs.genuine).1 hflat
    obtain ⟨closing', rest, rfl, hclosing', hrest⟩ := hrest.closing hclosing hgclosing
    refine ⟨.index opening' key' closing', rest, by simp [Suffix.leaves],
      ⟨hopening'.isSymbol hopening, hkey', hclosing'.saying hclosing⟩, rfl, ?_, hrest⟩
    simp only [Suffix.layout, List.cons_append, Item.flat_wordAs, Item.flat_append,
      Item.flat_spaceIf, hflat, hlong, Item.flat_nil]
  | .table fields, h, hg, hs => by
    obtain ⟨fields', rest, rfl, hfields', hhead, hflat, hs⟩ := Table.reread fields h.2 hg hs
    exact ⟨.table fields', rest, rfl, ⟨hhead.isSymbol h.1, hfields'⟩, rfl, hflat, hs⟩
  | .call opening none closing, h, hg, hs => by
    simp only [Suffix.leaves, AllGenuine.cons_iff] at hg
    have hsaid : opening.Says "(" := (Token.isOperator_iff.1 h.1).2
    simp only [Suffix.leaves, Suffix.layout, worded_fixed hsaid, worded_fixed h.2, worded_nil,
      List.cons_append, List.nil_append] at hs
    obtain ⟨opening', rest, rfl, hopening', hs⟩ := hs.fixed hsaid hg.1
    obtain ⟨closing', rest, rfl, hclosing', hs⟩ := hs.closing h.2 hg.2.1
    exact ⟨.call opening' none closing', rest, rfl,
      ⟨hopening'.isSymbol h.1, hclosing'.saying h.2⟩, rfl, rfl, hs⟩
  | .call opening (some arguments) closing, h, hg, hs => by
    obtain ⟨hopening, -, harguments, hclosing⟩ := h
    simp only [Suffix.leaves, AllGenuine.cons_iff, AllGenuine.append_iff] at hg
    obtain ⟨hgopening, hgarguments, hgclosing, -⟩ := hg
    have hsaid : opening.Says "(" := (Token.isOperator_iff.1 hopening).2
    simp only [Suffix.leaves, Suffix.layout, List.cons_append, worded_fixed hsaid, worded_append,
      worded_fixed hclosing, worded_nil, List.append_assoc, List.nil_append] at hs
    obtain ⟨opening', rest, rfl, hopening', hs⟩ := hs.fixed hsaid hgopening
    obtain ⟨arguments', rest, rfl, harguments', hflat, hrest⟩ :=
      Exprs.reread arguments harguments hgarguments (hclosing.same hgclosing) hs
    have hnone := Exprs.front_noneOf harguments' (AllGenuine.append_iff.1 hs.genuine).1
    obtain ⟨closing', rest, rfl, hclosing', hrest⟩ := hrest.closing hclosing hgclosing
    refine ⟨.call opening' (some arguments') closing', rest, by simp [Suffix.leaves],
      ⟨hopening'.isSymbol hopening, hnone, harguments', hclosing'.saying hclosing⟩, rfl, ?_, hrest⟩
    simp only [Suffix.layout, List.cons_append, Item.flat_wordAs, Item.flat_append, hflat,
      Item.flat_nil]

theorem Exprs.reread : ∀ es : Exprs, es.Rereads version tidy
  | .mk first others => by
    intro next indent folds more leaves h hg hnext hs
    obtain ⟨hgfirst, hgothers⟩ := AllGenuine.append_iff.1 hg
    simp only [Exprs.leaves, Exprs.layout, worded_append, List.append_assoc] at hs
    obtain ⟨first', rest, rfl, hfirst', hflatf, hs⟩ := Expr.reread first h.1 hgfirst (by decide)
      (commaExprs_passes h.2 hnext) hs
    obtain ⟨others', rest, rfl, hothers', hflat, hs⟩ :=
      commaExprsReread others h.2 hgothers hnext hs
    rw [Leaf.front_append] at hfirst'
    refine ⟨.mk first' others', rest, by simp [Exprs.leaves], ⟨hfirst', hothers'⟩, ?_, hs⟩
    simp only [Exprs.layout, Item.flat_append, hflatf, hflat]

theorem commaExprsReread {next : Option Token} {indent : Int} {more : List String}
    {leaves : List Leaf} :
    ∀ xs : List (Leaf × Expr), CommaExprsFit next xs → AllGenuine version (commaExprsLeaves xs) →
      Same next (headOf version more) →
      Spelled version false
        (worded tidy (commaExprsLeaves xs) (commaExprsLayout false indent xs) ++ more) leaves →
      ∃ (xs' : List (Leaf × Expr)) (rest : List Leaf), leaves = commaExprsLeaves xs' ++ rest ∧
        CommaExprsFit (front rest none) xs' ∧
        flat (commaExprsLayout false indent xs') = flat (commaExprsLayout false indent xs) ∧
        Spelled version false more rest
  | [], h, _, hnext, hs => by
    simp only [commaExprsLeaves, commaExprsLayout, worded_nil, List.nil_append] at hs
    exact ⟨[], leaves, rfl, (hs.front_same fun _ => rfl).noneOf (hnext.noneOf h), rfl, hs⟩
  | (comma, e) :: xs, h, hg, hnext, hs => by
    obtain ⟨hcomma, he, hxs⟩ := h
    simp only [commaExprsLeaves, AllGenuine.cons_iff, AllGenuine.append_iff] at hg
    obtain ⟨hgcomma, hge, hgxs⟩ := hg
    simp only [commaExprsLeaves, commaExprsLayout, List.cons_append, worded_fixed hcomma, worded_space,
      worded_append, List.append_assoc] at hs
    obtain ⟨comma', rest, rfl, hcomma', hs⟩ := hs.fixed hcomma hgcomma
    obtain ⟨e', rest, rfl, he', hflate, hs⟩ := Expr.reread e he hge (by decide)
      (commaExprs_passes hxs hnext) hs
    obtain ⟨xs', rest, rfl, hxs', hflat, hs⟩ := commaExprsReread xs hxs hgxs hnext hs
    rw [Leaf.front_append] at he'
    refine ⟨(comma', e') :: xs', rest, by simp [commaExprsLeaves],
      ⟨hcomma'.saying hcomma, he', hxs'⟩, ?_, hs⟩
    simp only [commaExprsLayout, List.cons_append, Item.flat_wordAs, Item.flat_space,
      Item.flat_append, hflate, hflat]

theorem Table.reread {indent : Int} {folds : Bool} {more : List String} {leaves : List Leaf} :
    ∀ t : Table, t.Fits → AllGenuine version t.leaves →
      Spelled version folds (worded tidy t.leaves (t.layout false indent) ++ more) leaves →
      ∃ (t' : Table) (rest : List Leaf), leaves = t'.leaves ++ rest ∧ t'.Fits ∧
        t'.head.Alike t.head ∧
        flat (t'.layout false indent) = flat (t.layout false indent) ∧
        Spelled version false more rest
  | .empty opening closing, h, hg, hs => by
    simp only [Table.leaves, AllGenuine.cons_iff] at hg
    simp only [Table.leaves, Table.layout, worded_fixed h.1, worded_fixed h.2, worded_nil,
      List.cons_append, List.nil_append] at hs
    obtain ⟨opening', rest, rfl, hopening', hs⟩ := hs.fixed h.1 hg.1
    obtain ⟨closing', rest, rfl, hclosing', hs⟩ := hs.closing h.2 hg.2.1
    exact ⟨.empty opening' closing', rest, rfl, ⟨hopening'.saying h.1, hclosing'.saying h.2⟩,
      hopening', rfl, hs⟩
  | .fields opening first others trailing closing, h, hg, hs => by
    obtain ⟨hopening, -, hfirst, hothers, htrailing, hclosing⟩ := h
    simp only [Table.leaves, AllGenuine.cons_iff, AllGenuine.append_iff] at hg
    obtain ⟨hgopening, hgfirst, hgothers, -, hgclosing, -⟩ := hg
    obtain ⟨last, hlast, hworded⟩ := worded_trailing tidy htrailing
    simp only [Table.leaves, Table.layout, List.cons_append, worded_fixed hopening, worded_newLine,
      worded_append, worded_closingLine, worded_fixed hclosing, worded_nil, List.append_assoc,
      List.nil_append, hworded] at hs
    have hends : EndsField (last.toList ++ "\x7d" :: more) := by
      cases last with
      | none => exact ⟨_, _, rfl, by decide⟩
      | some s => exact ⟨s, _, rfl, List.mem_append_left ["\x7d"] (hlast s rfl)⟩
    obtain ⟨opening', rest, rfl, hopening', hs⟩ := hs.fixed hopening hgopening
    obtain ⟨first', rest, rfl, hfirst', hflatf, hs'⟩ :=
      Field.reread first hfirst hgfirst (fields_end hothers hends) hs
    have hbrace := Field.front_noneOf hfirst' (AllGenuine.append_iff.1 hs.genuine).1
    obtain ⟨others', rest, rfl, hothers', hflat, hs'⟩ := fieldsReread others hothers hgothers hends hs'
    obtain ⟨trailing', rest, rfl, htrailing', _, hs'⟩ := hs'.separator? hlast
    obtain ⟨closing', rest, rfl, hclosing', hs'⟩ := hs'.closing hclosing hgclosing
    simp only [Leaf.front_append, Leaf.front_cons] at hfirst' hothers'
    refine ⟨.fields opening' first' others' trailing' closing', rest, by simp [Table.leaves],
      ⟨hopening'.saying hopening, hbrace, ?_, hothers', htrailing', hclosing'.saying hclosing⟩,
      hopening', ?_, hs'⟩
    · rwa [Leaf.front_append]
    · simp only [Table.layout, List.cons_append, Item.flat_wordAs, Item.flat_newLine, Item.flat_append,
        Item.flat_trailing, Item.flat_closingLine, hflatf, hflat]

theorem fieldsReread {next : Option Token} {indent : Int} {more : List String}
    {leaves : List Leaf} :
    ∀ fs : List (Leaf × Field), FieldsFit next fs → AllGenuine version (fieldsLeaves fs) →
      EndsField more →
      Spelled version false
        (worded tidy (fieldsLeaves fs) (commaFieldsLayout false indent fs) ++ more) leaves →
      ∃ (fs' : List (Leaf × Field)) (rest : List Leaf), leaves = fieldsLeaves fs' ++ rest ∧
        FieldsFit (front rest none) fs' ∧
        flat (commaFieldsLayout false indent fs') = flat (commaFieldsLayout false indent fs) ∧
        Spelled version false more rest
  | [], _, _, _, hs => by
    simp only [fieldsLeaves, commaFieldsLayout, worded_nil, List.nil_append] at hs
    exact ⟨[], leaves, rfl, trivial, rfl, hs⟩
  | (separator, f) :: fs, h, hg, hends, hs => by
    obtain ⟨hseparator, -, hf, hfs⟩ := h
    simp only [fieldsLeaves, AllGenuine.cons_iff, AllGenuine.append_iff] at hg
    obtain ⟨-, hgf, hgfs⟩ := hg
    obtain ⟨s, hs', hworded⟩ := worded_separator tidy hseparator
    simp only [fieldsLeaves, commaFieldsLayout, List.cons_append, hworded, worded_newLine,
      worded_append, List.append_assoc] at hs
    obtain ⟨separator', rest, rfl, hseparator', folds, hs⟩ := hs.separator hs'
    obtain ⟨f', rest, rfl, hf', hflatf, hrest⟩ := Field.reread f hf hgf (fields_end hfs hends) hs
    have hbrace := Field.front_noneOf hf' (AllGenuine.append_iff.1 hs.genuine).1
    obtain ⟨fs', rest, rfl, hfs', hflat, hrest⟩ := fieldsReread fs hfs hgfs hends hrest
    rw [Leaf.front_append] at hf'
    refine ⟨(separator', f') :: fs', rest, by simp [fieldsLeaves],
      ⟨hseparator', hbrace, hf', hfs'⟩, ?_, hrest⟩
    simp only [commaFieldsLayout, List.cons_append, Item.flat_wordAs, Item.flat_newLine,
      Item.flat_append, hflatf, hflat]

theorem Field.reread {next : Option Token} {indent : Int} {folds : Bool} {more : List String}
    {leaves : List Leaf} :
    ∀ f : Field, f.Fits next → AllGenuine version f.leaves → EndsField more →
      Spelled version folds (worded tidy f.leaves (f.layout false indent) ++ more) leaves →
      ∃ (f' : Field) (rest : List Leaf), leaves = f'.leaves ++ rest ∧ f'.Fits (front rest none) ∧
        flat (f'.layout false indent) = flat (f.layout false indent) ∧
        Spelled version false more rest
  | .keyed opening key closing equals value, h, hg, hends, hs => by
    obtain ⟨hopening, hkey, hclosing, hequals, hvalue⟩ := h
    simp only [Field.leaves, AllGenuine.cons_iff, AllGenuine.append_iff] at hg
    obtain ⟨hgopening, hgkey, hgclosing, hgequals, hgvalue⟩ := hg
    have hsaid : opening.Says "[" := (Token.isOperator_iff.1 hopening).2
    simp only [Field.leaves, Field.layout, List.cons_append, List.append_assoc, worded_fixed hsaid,
      worded_spaceIf] at hs
    simp only [worded_append, worded_spaceIf, worded_fixed hclosing, worded_space,
      worded_fixed hequals, List.append_assoc, List.cons_append] at hs
    obtain ⟨opening', rest, rfl, hopening', hs⟩ := hs.fixed hsaid hgopening
    obtain ⟨key', rest, rfl, hkey', hflatk, hrest⟩ :=
      Expr.reread key hkey hgkey (by decide) (passes_ender (by decide)) hs
    have hlong := Expr.startsWithLongString_eq hkey hkey' hgkey
      (AllGenuine.append_iff.1 hs.genuine).1 hflatk
    obtain ⟨closing', rest, rfl, hclosing', hrest⟩ := hrest.closing hclosing hgclosing
    obtain ⟨equals', rest, rfl, hequals', hrest⟩ := hrest.fixed hequals hgequals
    obtain ⟨value', rest, rfl, hvalue', hflatv, hrest⟩ :=
      Expr.reread value hvalue hgvalue (by decide) hends.passes hrest
    refine ⟨.keyed opening' key' closing' equals' value', rest, by simp [Field.leaves],
      ⟨hopening'.isSymbol hopening, hkey', hclosing'.saying hclosing, hequals'.saying hequals,
        hvalue'⟩, ?_, hrest⟩
    simp only [Field.layout, List.cons_append, Item.flat_wordAs, Item.flat_append, Item.flat_spaceIf,
      Item.flat_space, hflatk, hlong, hflatv]
  | .named name equals value, h, hg, hends, hs => by
    obtain ⟨hname, hequals, hvalue⟩ := h
    simp only [Field.leaves, AllGenuine.cons_iff] at hg
    obtain ⟨hgname, hgequals, hgvalue⟩ := hg
    simp only [Field.leaves, Field.layout, worded_leaf, worded_space, worded_fixed hequals,
      List.append_assoc, List.cons_append] at hs
    obtain ⟨name', rest, rfl, hname', hs⟩ := hs.name hname hgname
    obtain ⟨equals', rest, rfl, hequals', hs⟩ := hs.fixed hequals hgequals
    obtain ⟨value', rest, rfl, hvalue', hflat, hs⟩ :=
      Expr.reread value hvalue hgvalue (by decide) hends.passes hs
    refine ⟨.named name' equals' value', rest, rfl,
      ⟨hname'.isName hname, hequals'.saying hequals, hvalue'⟩, ?_, hs⟩
    simp only [Field.layout, Item.flat_word, Item.flat_space, Item.flat_wordAs, hname'.text, hflat]
  | .positional value, h, hg, hends, hs => by
    obtain ⟨value', rest, rfl, hvalue', hflat, hrest⟩ :=
      Expr.reread value h.1 hg (by decide) hends.passes hs
    have hgvalue' := (AllGenuine.append_iff.1 hs.genuine).1
    have hequals : NoneOf ["="] (front rest none) :=
      (hrest.front_same fun _ => rfl).noneOf hends.noneOf
    exact ⟨.positional value', rest, rfl,
      ⟨hvalue', fun hname => Expr.tail_noneOf hvalue' hgvalue' hname hequals⟩, hflat, hrest⟩

theorem Body.reread : ∀ b : Body, b.Rereads version tidy
  | .mk parameters block closing => by
    intro indent folds more leaves h hg hs
    obtain ⟨hparameters, hblock, hclosing⟩ := h
    simp only [Body.leaves, AllGenuine.append_iff, AllGenuine.cons_iff] at hg
    obtain ⟨hgparameters, hgblock, hgclosing, -⟩ := hg
    simp only [Body.leaves, Body.layout, closeBlock, worded_append, worded_closingLine,
      worded_fixed hclosing, worded_nil, List.append_assoc, List.cons_append, List.nil_append] at hs
    obtain ⟨parameters', rest, folds', rfl, hparameters', hflatp, hs⟩ :=
      Parameters.reread hparameters hgparameters hs
    obtain ⟨block', rest, folds', rfl, hblock', hflat, hs⟩ :=
      Block.reread block hblock hgblock (hclosing.same hgclosing) (by simp) hs
    obtain ⟨closing', rest, rfl, hclosing', hs⟩ := hs.closing hclosing hgclosing
    refine ⟨.mk parameters' block' closing', rest, by simp [Body.leaves],
      ⟨hparameters', hblock', hclosing'.saying hclosing⟩, ?_, hs⟩
    simp only [Body.layout, closeBlock, Item.flat_append, Item.flat_closingLine, Item.flat_wordAs,
      hflatp, hflat, Item.flat_nil]

theorem Block.reread : ∀ b : Block, b.Rereads version tidy
  | .mk statements => by
    intro next indent folds more leaves h hg hnext hminus hs
    obtain ⟨statements', rest, folds', rfl, hfits, hflat, hs⟩ :=
      statementsReread statements h hg hnext hminus hs
    exact ⟨.mk statements', rest, folds', rfl, hfits, hflat, hs⟩

theorem statementsReread {next : Option Token} {indent : Int} {blank folds : Bool}
    {more : List String} {leaves : List Leaf} :
    ∀ xs : List Stat, StatementsFit next xs → AllGenuine version (statementsLeaves xs) →
      Same next (headOf version more) → more.head? ≠ some "-" →
      Spelled version folds
        (worded tidy (statementsLeaves xs) (statementsLayout false indent blank xs) ++ more) leaves →
      ∃ (xs' : List Stat) (rest : List Leaf) (folds' : Bool), leaves = statementsLeaves xs' ++ rest ∧
        StatementsFit (front rest none) xs' ∧
        flat (statementsLayout false indent blank xs') =
          flat (statementsLayout false indent blank xs) ∧
        Spelled version folds' more rest
  | [], h, _, hnext, hminus, hs => by
    simp only [statementsLeaves, statementsLayout, worded_nil, List.nil_append] at hs
    have hfront := hs.front_same fun hhead => absurd hhead hminus
    have hends : (front leaves none).all Parser.endsBlock = true := by
      rw [hfront.all fun _ => rfl, hnext.all fun _ => rfl]
      exact h
    exact ⟨[], leaves, folds, rfl, hends, rfl, hs⟩
  | x :: xs, h, hg, hnext, hminus, hs => by
    obtain ⟨hbegins, hx, hxs⟩ := h
    obtain ⟨hgx, hgxs⟩ := AllGenuine.append_iff.1 hg
    obtain ⟨hsame, hhead⟩ := statements_front tidy indent
      x.declaresFunction hxs hgxs hnext hminus
    simp only [statementsLeaves, statementsLayout, List.cons_append, worded_line, worded_append,
      List.append_assoc] at hs
    obtain ⟨x', rest, folds', rfl, hx', ⟨hfirst, hdeclares⟩, hflatx, hs⟩ :=
      Stat.reread x hx hgx hsame hhead hs
    obtain ⟨xs', rest, folds', rfl, hxs', hflat, hs⟩ :=
      statementsReread xs hxs hgxs hnext hminus hs
    rw [Leaf.front_append] at hx'
    refine ⟨x' :: xs', rest, folds', by simp [statementsLeaves], ⟨?_, hx', hxs'⟩, ?_, hs⟩
    · rw [hfirst.all fun _ => rfl]
      exact hbegins
    · simp only [statementsLayout, List.cons_append, Item.flat_line, Item.flat_append, hflatx,
        hdeclares, hflat]

theorem Stat.reread : ∀ x : Stat, x.Rereads version tidy
  | .breakLoop word => by
    intro next indent folds more leaves h hg _ _ hs
    have hsaid : word.Says "break" := Leaf.Opens.saying h
    simp only [Stat.leaves, Stat.layout, worded_fixed hsaid, worded_nil, List.cons_append,
      List.nil_append] at hs
    obtain ⟨word', rest, rfl, hword', hs⟩ := hs.fixed hsaid (AllGenuine.cons_iff.1 hg).1
    exact ⟨.breakLoop word', rest, _, rfl, hword'.opens h, ⟨hword'.same, rfl⟩, rfl, hs⟩
  | .goto word target => by
    intro next indent folds more leaves h hg _ _ hs
    simp only [Stat.leaves, AllGenuine.cons_iff] at hg
    have hsaid : word.Says "goto" := h.1.saying
    simp only [Stat.leaves, Stat.layout, worded_fixed hsaid, worded_space, worded_leaf, worded_nil,
      List.cons_append, List.append_nil] at hs
    obtain ⟨word', rest, rfl, hword', hs⟩ := hs.fixed hsaid hg.1
    obtain ⟨target', rest, rfl, htarget', hs⟩ := hs.name h.2 hg.2.1
    refine ⟨.goto word' target', rest, _, rfl, ⟨hword'.opens h.1, htarget'.isName h.2⟩,
      ⟨hword'.same, rfl⟩, ?_, hs⟩
    simp only [Stat.layout, Item.flat_wordAs, Item.flat_space, Item.flat_word, htarget'.text]
  | .label opening name closing => by
    intro next indent folds more leaves h hg _ _ hs
    obtain ⟨hopening, hname, hclosing⟩ := h
    simp only [Stat.leaves, AllGenuine.cons_iff] at hg
    obtain ⟨hgopening, hgname, hgclosing, -⟩ := hg
    have hsaid : opening.Says "::" := hopening.saying
    simp only [Stat.leaves, Stat.layout, worded_fixed hsaid, worded_leaf, worded_fixed hclosing,
      worded_nil, List.cons_append, List.append_assoc, List.nil_append] at hs
    obtain ⟨opening', rest, rfl, hopening', hs⟩ := hs.fixed hsaid hgopening
    obtain ⟨name', rest, rfl, hname', hs⟩ := hs.name hname hgname
    obtain ⟨closing', rest, rfl, hclosing', hs⟩ := hs.fixed hclosing hgclosing
    refine ⟨.label opening' name' closing', rest, _, rfl,
      ⟨hopening'.opens hopening, hname'.isName hname, hclosing'.saying hclosing⟩,
      ⟨hopening'.same, rfl⟩, ?_, hs⟩
    simp only [Stat.layout, Item.flat_wordAs, Item.flat_word, hname'.text, Item.flat_nil]
  | .empty semicolon => by
    intro next indent folds more leaves h hg _ _ hs
    have hsaid : semicolon.Says ";" := Leaf.Opens.saying h
    simp only [Stat.leaves, Stat.layout, worded_fixed hsaid, worded_nil, List.cons_append,
      List.nil_append] at hs
    obtain ⟨semicolon', rest, rfl, hword', hs⟩ := hs.fixed hsaid (AllGenuine.cons_iff.1 hg).1
    exact ⟨.empty semicolon', rest, _, rfl, hword'.opens h, ⟨hword'.same, rfl⟩, rfl, hs⟩
  | .doBlock word block closing => by
    intro next indent folds more leaves h hg _ _ hs
    obtain ⟨hword, hblock, hclosing⟩ := h
    simp only [Stat.leaves, AllGenuine.cons_iff, AllGenuine.append_iff] at hg
    obtain ⟨hgword, hgblock, hgclosing, -⟩ := hg
    have hsaid : word.Says "do" := hword.saying
    simp only [Stat.leaves, Stat.layout, closeBlock, List.cons_append, worded_fixed hsaid,
      worded_append, worded_closingLine, worded_fixed hclosing, worded_nil, List.append_assoc,
      List.nil_append] at hs
    obtain ⟨word', rest, rfl, hword', hs⟩ := hs.fixed hsaid hgword
    obtain ⟨block', rest, _, rfl, hblock', hflat, hs⟩ :=
      Block.reread block hblock hgblock (hclosing.same hgclosing) (by simp) hs
    obtain ⟨closing', rest, rfl, hclosing', hs⟩ := hs.fixed hclosing hgclosing
    refine ⟨.doBlock word' block' closing', rest, _, by simp [Stat.leaves],
      ⟨hword'.opens hword, hblock', hclosing'.saying hclosing⟩, ⟨hword'.same, rfl⟩, ?_, hs⟩
    simp only [Stat.layout, closeBlock, List.cons_append, Item.flat_wordAs, Item.flat_append,
      Item.flat_closingLine, Item.flat_nil, hflat]
  | .whileLoop word condition opening block closing =>
    whileLoop_rereads (Expr.reread condition) (Block.reread block)
  | .repeatLoop word block closing condition =>
    repeatLoop_rereads (Block.reread block) (Expr.reread condition)
  | .conditional first others otherwise closing =>
    conditional_rereads (Branch.reread first) (branchesReread others) (otherwiseReread otherwise)
  | .countingLoop word name equals start comma stop step opening block closing =>
    countingLoop_rereads (Expr.reread start) (Expr.reread stop) (stepReread step)
      (Block.reread block)
  | .iteration word name others between values opening block closing =>
    iteration_rereads (Exprs.reread values) (Block.reread block)
  | .function word name path method body => function_rereads (Body.reread body)
  | .localFunction word function name body => by
    intro next indent folds more leaves h hg _ _ hs
    obtain ⟨hword, hfunction, hname, hbody⟩ := h
    simp only [Stat.leaves, AllGenuine.cons_iff] at hg
    obtain ⟨hgword, hgfunction, hgname, hgbody⟩ := hg
    have hsaid : word.Says "local" := hword.saying
    simp only [Stat.leaves, Stat.layout, List.cons_append, worded_fixed hsaid, worded_space,
      worded_fixed hfunction, worded_leaf, List.append_assoc] at hs
    obtain ⟨word', rest, rfl, hword', hs⟩ := hs.fixed hsaid hgword
    obtain ⟨function', rest, rfl, hfunction', hs⟩ := hs.fixed hfunction hgfunction
    obtain ⟨name', rest, rfl, hname', hs⟩ := hs.name hname hgname
    obtain ⟨body', rest, rfl, hbody', hflat, hs⟩ := Body.reread body hbody hgbody hs
    refine ⟨.localFunction word' function' name' body', rest, _, rfl, ⟨hword'.opens hword,
      hfunction'.saying hfunction, hname'.isName hname, hbody'⟩, ⟨hword'.same, rfl⟩, ?_, hs⟩
    simp only [Stat.layout, Item.flat_wordAs, Item.flat_space, Item.flat_word, hname'.text, hflat]
  | .localNames word first others none => localNames_none_rereads
  | .localNames word first others (some (equals, values)) =>
    localNames_some_rereads (Exprs.reread values)
  | .result word none => by
    intro next indent folds more leaves h hg hnext hminus hs
    obtain ⟨hword, hends⟩ := h
    have hsaid : word.Says "return" := hword.saying
    simp only [Stat.leaves, Stat.layout, worded_fixed hsaid, worded_nil, List.cons_append,
      List.nil_append] at hs
    obtain ⟨word', rest, rfl, hword', hs⟩ := hs.fixed hsaid (AllGenuine.cons_iff.1 hg).1
    have hfront := hs.front_same fun hhead => absurd hhead hminus
    refine ⟨.result word' none, rest, _, rfl, ⟨hword'.opens hword, ?_⟩, ⟨hword'.same, rfl⟩, rfl, hs⟩
    rw [hfront.all fun _ => rfl, hnext.all fun _ => rfl]
    exact hends
  | .result word (some values) => by
    intro next indent folds more leaves h hg hnext _ hs
    obtain ⟨hword, -, hvalues⟩ := h
    obtain ⟨hgword, hgvalues⟩ := AllGenuine.cons_iff.1 hg
    have hsaid : word.Says "return" := hword.saying
    simp only [Stat.leaves, Stat.layout, worded_fixed hsaid, worded_space, List.cons_append] at hs
    obtain ⟨word', rest, rfl, hword', hs⟩ := hs.fixed hsaid hgword
    obtain ⟨values', rest, rfl, hvalues', hflat, hrest⟩ :=
      Exprs.reread values hvalues hgvalues hnext hs
    refine ⟨.result word' (some values'), rest, _, rfl, ⟨hword'.opens hword,
      Exprs.front_endsResult hvalues', hvalues'⟩, ⟨hword'.same, rfl⟩, ?_, hrest⟩
    simp only [Stat.layout, Item.flat_wordAs, Item.flat_space, hflat]
  | .assignment first others equals values =>
    assignment_rereads (Access.reread first) (commaAccessesReread others) (Exprs.reread values)
  | .call callee => by
    intro next indent folds more leaves h hg hnext hminus hs
    obtain ⟨hopens, hcallee, hkind, hends⟩ := h
    obtain ⟨callee', rest, rfl, hcallee', ⟨hhead, hkind'⟩, hflat, hs⟩ :=
      Access.reread callee hcallee hg hnext.passes hs
    have hfront := hs.front_same fun _ => rfl
    refine ⟨.call callee', rest, _, rfl, ⟨hhead.opensNone hopens, hcallee', hkind'.trans hkind,
      hfront.noneOf (hnext.noneOf hends)⟩, ⟨?_, rfl⟩, hflat, hs⟩
    obtain ⟨ls, hl⟩ := callee.leaves_eq
    obtain ⟨ls', hl'⟩ := callee'.leaves_eq
    simp only [Stat.leaves, hl, hl', Leaf.front_cons]
    exact hhead.same

theorem commaAccessesReread : ∀ xs : List (Leaf × Access), CommaAccessesReread version tidy xs
  | [] => by
    intro next indent text more leaves htext _ _ hs
    simp only [commaAccessesLeaves, commaAccessesLayout, worded_nil, List.nil_append] at hs
    exact ⟨[], leaves, rfl, trivial, rfl, hs⟩
  | (comma, a) :: xs => by
    intro next indent text more leaves htext h hg hs
    obtain ⟨hcomma, ha, hkind, hxs⟩ := h
    simp only [commaAccessesLeaves, AllGenuine.cons_iff, AllGenuine.append_iff] at hg
    obtain ⟨hgcomma, hga, hgxs⟩ := hg
    simp only [commaAccessesLeaves, commaAccessesLayout, List.cons_append, worded_fixed hcomma,
      worded_space, worded_append, List.append_assoc] at hs
    obtain ⟨comma', rest, rfl, hcomma', hs⟩ := hs.fixed hcomma hgcomma
    obtain ⟨a', rest, rfl, ha', ⟨-, hkind'⟩, hflata, hs⟩ :=
      Access.reread a ha hga (commaAccesses_passes hxs htext) hs
    obtain ⟨xs', rest, rfl, hxs', hflat, hs⟩ := commaAccessesReread xs htext hxs hgxs hs
    rw [Leaf.front_append] at ha'
    refine ⟨(comma', a') :: xs', rest, by simp [commaAccessesLeaves],
      ⟨hcomma'.saying hcomma, ha', hkind'.trans hkind, hxs'⟩, ?_, hs⟩
    simp only [commaAccessesLayout, List.cons_append, Item.flat_wordAs, Item.flat_space,
      Item.flat_append, hflata, hflat]

theorem Branch.reread : ∀ b : Branch, b.Rereads version tidy
  | .mk word condition opening block => by
    intro next indent text folds more leaves htext hsaid h hg hnext hminus hs
    obtain ⟨hcondition, hopening, hblock⟩ := h
    simp only [Branch.leaves, AllGenuine.cons_iff, AllGenuine.append_iff] at hg
    obtain ⟨hgword, hgcondition, hgopening, hgblock⟩ := hg
    have hword : word.Says text := hsaid word rfl
    simp only [Branch.leaves, Branch.layout, List.cons_append, worded_fixed hword htext,
      worded_space, worded_append, worded_fixed hopening, List.append_assoc] at hs
    obtain ⟨word', rest, rfl, hword', hs⟩ := hs.fixed hword hgword htext
    obtain ⟨condition', rest, rfl, hcondition', hflatc, hs⟩ :=
      Expr.reread condition hcondition hgcondition (by decide) (passes_ender (by decide)) hs
    obtain ⟨opening', rest, rfl, hopening', hs⟩ := hs.fixed hopening hgopening
    obtain ⟨block', rest, folds', rfl, hblock', hflat, hs⟩ :=
      Block.reread block hblock hgblock hnext hminus hs
    refine ⟨.mk word' condition' opening' block', rest, folds', by simp [Branch.leaves],
      ⟨hcondition', hopening'.saying hopening, hblock'⟩, ⟨_, _, _, _, rfl, rfl, hword'⟩, ?_, hs⟩
    simp only [Branch.layout, List.cons_append, Item.flat_wordAs, Item.flat_space, Item.flat_append,
      hflatc, hflat]

theorem branchesReread : ∀ bs : List Branch, BranchesReread version tidy bs
  | [] => by
    intro next indent folds more leaves _ _ _ _ hs
    simp only [branchesLeaves, branchesLayout, worded_nil, List.nil_append] at hs
    exact ⟨[], leaves, folds, rfl, trivial, rfl, hs⟩
  | b :: bs => by
    intro next indent folds more leaves h hg hnext hminus hs
    obtain ⟨hsaid, hb, hbs⟩ := h
    obtain ⟨hgb, hgbs⟩ := AllGenuine.append_iff.1 hg
    simp only [branchesLeaves, branchesLayout, List.cons_append, worded_closingLine, worded_append,
      List.append_assoc] at hs
    obtain ⟨hafter, hafterMinus⟩ := branches_front tidy indent hbs hgbs hnext
      hminus
    obtain ⟨b', rest, _, rfl, hb', ⟨l, ls, l', ls', hl, hl', halike⟩, hflatb, hs⟩ :=
      Branch.reread b (by decide) hsaid hb hgb hafter hafterMinus hs
    obtain ⟨bs', rest, folds', rfl, hbs', hflat, hs⟩ :=
      branchesReread bs hbs hgbs hnext hminus hs
    rw [Leaf.front_append] at hb'
    refine ⟨b' :: bs', rest, folds', by simp [branchesLeaves], ⟨?_, hb', hbs'⟩, ?_, hs⟩
    · rw [hl']
      rintro _ ⟨⟩
      exact halike.saying (hsaid l (by simp [hl]))
    · simp only [branchesLayout, List.cons_append, Item.flat_closingLine, Item.flat_append, hflatb,
        hflat]

theorem otherwiseReread : ∀ o : Option (Leaf × Block), OtherwiseRereads version tidy o
  | none => by
    intro next indent folds more leaves _ _ _ _ hs
    simp only [otherwiseLeaves, otherwiseLayout, worded_nil, List.nil_append] at hs
    exact ⟨none, leaves, folds, rfl, trivial, rfl, hs⟩
  | some (word, block) => by
    intro next indent folds more leaves h hg hnext hminus hs
    obtain ⟨hgword, hgblock⟩ := AllGenuine.cons_iff.1 hg
    simp only [otherwiseLeaves, otherwiseLayout, closeBlock, List.cons_append, List.nil_append,
      worded_closingLine, worded_fixed h.1] at hs
    obtain ⟨word', rest, rfl, hword', hs⟩ := hs.fixed h.1 hgword
    obtain ⟨block', rest, folds', rfl, hblock', hflat, hs⟩ :=
      Block.reread block h.2 hgblock hnext hminus hs
    refine ⟨some (word', block'), rest, folds', rfl, ⟨hword'.saying h.1, hblock'⟩, ?_, hs⟩
    simp only [otherwiseLayout, closeBlock, List.cons_append, List.nil_append, Item.flat_closingLine,
      Item.flat_wordAs, hflat]

theorem stepReread : ∀ s : Option (Leaf × Expr), StepRereads version tidy s
  | none => by
    intro next indent more leaves _ _ _ hs
    simp only [stepLeaves, stepLayout, worded_nil, List.nil_append] at hs
    exact ⟨none, leaves, rfl, trivial, rfl, hs⟩
  | some (comma, step) => by
    intro next indent more leaves h hg hnext hs
    obtain ⟨hgcomma, hgstep⟩ := AllGenuine.cons_iff.1 hg
    simp only [stepLeaves, stepLayout, List.cons_append, worded_fixed h.1, worded_space] at hs
    obtain ⟨comma', rest, rfl, hcomma', hs⟩ := hs.fixed h.1 hgcomma
    obtain ⟨step', rest, rfl, hstep', hflat, hs⟩ := Expr.reread step h.2 hgstep (by decide) hnext hs
    refine ⟨some (comma', step'), rest, rfl, ⟨hcomma'.saying h.1, hstep'⟩, ?_, hs⟩
    simp only [stepLayout, Item.flat_wordAs, Item.flat_space, hflat]

end

/-! ## 5. Programs -/

/-- Leaves that spell the words of a program are those of a program that looks the same. -/
theorem Block.reread_program {leaves : List Leaf} {tree : Block} (h : tree.Fits none)
    (hg : AllGenuine version tree.leaves)
    (hs : Spelled version true (worded tidy tree.leaves (tree.layout false 0)) leaves) :
    ∃ tree' : Block, leaves = tree'.leaves ∧ tree'.Fits none ∧
      flat (tree'.layout false 0) = flat (tree.layout false 0) := by
  have hend : Same none (headOf version []) := .rfl
  rw [← List.append_nil (worded tidy tree.leaves (tree.layout false 0))] at hs
  obtain ⟨tree', rest, folds, rfl, hfits, hflat, hrest⟩ := Block.reread tree h hg hend (by simp) hs
  obtain rfl := hrest.eq_nil
  exact ⟨tree', List.append_nil _, hfits, hflat⟩

end LuaLayout
