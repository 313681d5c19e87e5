/-
LuaLayout.Proofs.Session.Progress — going through a program comes to an end.

Every method is paced: expressions, tables and accesses first, then statements and
blocks, each from the two methods that it is built on, so the methods for any depth
are. A method that takes a leaf before it uses the two is paced on one leaf more than
they are. Of the four that its first leaf earns, an access, a table or an operand
keeps three, since one goes into the last round of a loop; an expression keeps two,
and whatever has a loop over expressions one. A block alone may take nothing and
costs its caller one.

Formatting begins with the tokens as its leaves and is therefore done after calls and
rounds in proportion to them, with a text or with a complaint.
-/
import Mathlib.Data.List.Perm.Subperm
import LuaLayout.Proofs.Session.Pacing

namespace LuaLayout

namespace Renderer

/-- The two methods are paced on leaves that are fewer than the bound. -/
structure Rules.Paced (n : Nat) (r : Rules) : Prop where
  expression : ∀ {rank c : Nat} (indent limit : Int), Method.expression.rank < rank →
    Renderer.Paced n rank c (fun _ => c + 2) (r.expression indent limit)
  block : ∀ {rank c : Nat} (indent : Int), Method.block.rank < rank →
    Renderer.Paced n rank (c + 1) (fun _ => c) (r.block indent)

variable {n rank c k : Nat} {r : Rules}

/-! ## 1. Expressions and tables -/

/-- What may be left out is paid for by whoever asks for it: it takes a leaf, or it does not. -/
theorem ifSees_paced {text : String} {w : Renderer Unit} (h : Paced n rank (c + 1) (fun _ => c) w) :
    Paced n rank (c + 1) (fun _ => c) (ifSees text w) :=
  .askBind fun _ => .ite h (.pure (by omega))

/-- Nothing is taken between a bracket and its index. -/
theorem openIndex_paced (hrank : Method.openIndex.rank < rank) :
    Paced n rank c (fun _ => c) openIndex :=
  .call (.askBind fun _ => .put (.bind .spaceWhere fun _ => .pure (Nat.le_refl c))) hrank nofun rfl

/-- An operator and what it is applied to: the leaf of the operator pays for the next round. -/
theorem operation_paced (h : r.Paced n) (indent limit : Int) :
    Paced n 5 k (Paced.stake k) (operation r indent limit) := by
  refine .askBind fun t => ?_
  cases t with
  | none => exact .done (Nat.le_refl k)
  | some t =>
    dsimp only
    cases Parser.continuing? limit t with
    | none => exact .done (Nat.le_refl k)
    | some powers =>
      exact .bind .next fun _ => .put (.put (.put (.bind (h.expression _ _ (by decide)) fun _ =>
        .yield (by omega))))

theorem nextExpression_paced (h : r.Paced n) (indent : Int) (hrank : Method.expression.rank < rank) :
    Paced n rank k (Paced.stake k) (nextExpression r indent) := by
  refine .askBind fun _ => .ite ?_ (.done (Nat.le_refl k))
  exact .bind .next fun _ => .put (.put (.bind (h.expression _ _ hrank) fun _ => .yield (by omega)))

/-- Expressions with commas between them. The first expression leaves the price of the first
round and one more. -/
theorem expressions_paced (h : r.Paced n) (indent : Int) (hrank : Method.expressions.rank < rank) :
    Paced n rank c (fun _ => c + 1) (expressions r indent) := by
  refine .call ?_ hrank (fun _ _ => by omega) rfl
  exact .bind (h.expression _ _ (by decide)) fun _ =>
    .loop (fun _ => nextExpression_paced h indent (by decide)) ()

/-- A field of a table ends with an expression or is one. -/
theorem field_paced (h : r.Paced n) (indent : Int) (hrank : Method.field.rank < rank) :
    Paced n rank c (fun _ => c + 1) (field r indent) := by
  refine .call (.askBind fun t => ?_) hrank (fun _ _ => by omega) rfl
  cases t with
  | none => exact .fail
  | some t =>
    refine .ite ?_ (.askBind fun _ => .ite ?_ ?_)
    · refine .bind .next fun _ => .bind (openIndex_paced (by decide)) fun _ => ?_
      refine .bind (h.expression _ _ (by decide)) fun _ => ?_
      refine .bind .expect fun _ => .bind .expect fun _ => .bind .spaceWhere fun _ => ?_
      exact .put (.put (.put (.put (.leaving (h.expression _ _ (by decide)) (by omega)))))
    · refine .bind .next fun _ => .bind .next fun _ => .put (.put (.put (.put ?_)))
      exact .leaving (h.expression _ _ (by decide)) (by omega)
    · exact .leaving (h.expression _ _ (by decide)) (by omega)

/-- After a field the loop goes on behind a separator, or there is none and it ends. -/
theorem separator_paced : Paced n rank (k + 1) (Paced.stake k) separator := by
  refine .askBind fun _ => .askBind fun _ => .ite ?_ ?_
  · refine .bind .next fun _ => .askBind fun _ => .ite (.done (by omega)) ?_
    exact .put (.yield (by omega))
  · exact .askBind fun _ => .ite (.done (by omega)) .fail

/-- A round of a table: the field alone would pay for the next one. -/
theorem nextField_paced (h : r.Paced n) (indent : Int) :
    Paced n 5 k (Paced.stake k) (nextField r indent) :=
  .put (.bind (field_paced h indent (by decide)) fun _ => separator_paced)

theorem closeTable_paced (indent : Int) : Paced n rank c (fun _ => c + 4) (closeTable indent) :=
  .put (.bind .expect fun _ => .lay)

/-- A table takes its brace first, so its fields may use methods of any rank. -/
theorem table_paced (h : r.Paced n) (indent : Int) (hrank : Method.table.rank < rank) :
    Paced (n + 1) rank c (fun _ => c + 3) (table r indent) := by
  refine .call ?_ hrank (fun _ _ => by omega) rfl
  refine .leafBind .expect (by omega) fun _ => .askBind fun _ => .ite ?_ ?_
  · exact .bind .next fun _ => .put (.leaving .lay (by omega))
  · refine .put (.bind (.loop (fun _ => nextField_paced h _) ()) fun _ => ?_)
    exact .leaving (closeTable_paced indent) (by omega)

/-! ## 2. Functions and operands -/

/-- The word at the end of a block is a leaf of its own. -/
theorem closeBlock_paced (indent : Int) (word : String) (hrank : Method.closeBlock.rank < rank) :
    Paced n rank c (fun _ => c + 4) (closeBlock indent word) :=
  .call (.put (.bind .expect fun _ => .lay)) hrank (fun _ _ => by omega) rfl

theorem nextParameter_paced (names : List String) :
    Paced n rank k (Paced.stake k) (nextParameter names) := by
  refine .askBind fun _ => .ite (.bind .next fun _ => .done (by omega)) ?_
  refine .bind .expectName fun _ => .askBind fun _ => .ite ?_ (.done (by omega))
  exact .bind .next fun _ => .yield (by omega)

/-- Names are read in rounds, unless the brackets are empty. -/
theorem parameterNames_paced : Paced n rank (c + 1) (fun _ => c) parameterNames :=
  .askBind fun _ => .ite (.pure (by omega)) (.loop nextParameter_paced [])

theorem closeParameters_paced (names : List String) :
    Paced n rank c (fun _ => c + 4) (closeParameters names) :=
  .bind .expect fun _ => .put (.bind (.separated (fun _ => .lay) names) fun _ => .lay)

theorem parameters_paced (hrank : Method.parameters.rank < rank) :
    Paced (n + 1) rank c (fun _ => c + 1) parameters := by
  refine .call ?_ hrank (fun _ _ => by omega) rfl
  refine .leafBind .expect (by omega) fun _ => .bind parameterNames_paced fun names => ?_
  exact .leaving (closeParameters_paced names) (by omega)

/-- A function takes a bracket before its block, so calls for blocks may be nested in it. -/
theorem body_paced (h : r.Paced n) (indent : Int) (hrank : Method.body.rank < rank) :
    Paced (n + 1) rank c (fun _ => c + 1) (body r indent) := by
  refine .call ?_ hrank (fun _ _ => by omega) rfl
  refine .leafBind (parameters_paced (by decide)) (by omega) fun _ => ?_
  refine .bind (h.block _ (by decide)) fun _ => ?_
  exact .leaving (closeBlock_paced _ _ (by decide)) (by omega)

/-- An access begins with a leaf, and may call for an expression behind it. -/
theorem root_paced (h : r.Paced n) (indent : Int) :
    Paced (n + 1) rank c (fun _ => c + 4) (root r indent) := by
  refine .askBind fun t => ?_
  cases t with
  | none => exact .fail
  | some t =>
    refine .ite ?_ (.ite ?_ .fail)
    · refine .leafBind .next (by omega) fun _ => .put (.bind (h.expression _ _ (by decide)) fun _ => ?_)
      exact .bind .expect fun _ => .put (.pure (by omega))
    · exact .bind .next fun _ => .put (.pure (by omega))

theorem arguments_paced (h : r.Paced n) (indent : Int) :
    Paced n 5 c (fun _ => c) (arguments r indent) :=
  .askBind fun _ => .ite (.pure (Nat.le_refl c))
    (.leaving (expressions_paced h indent (by decide)) (by omega))

/-- Each thing that follows an access takes a leaf, and the loop ends where none is there. -/
theorem suffix_paced (h : r.Paced n) (indent : Int) (kind : AccessKind) :
    Paced n 5 k (Paced.stake k) (suffix r indent kind) := by
  refine .askBind fun t => ?_
  cases t with
  | none => exact .done (Nat.le_refl k)
  | some t =>
    refine .ite (.bind .next fun _ => .put (.put (.yield (by omega)))) (.ite ?_ (.ite ?_ (.ite ?_ ?_)))
    · exact .bind .next fun _ => .bind .expectName fun _ => .put (.put (.yield (by omega)))
    · refine .bind .next fun _ => .bind (openIndex_paced (by decide)) fun _ => ?_
      refine .bind (h.expression _ _ (by decide)) fun _ => .bind .expect fun _ => ?_
      exact .bind .spaceWhere fun _ => .put (.yield (by omega))
    · refine .bind (.behind (table_paced h indent (by decide))) fun _ => ?_
      exact .yield (by omega)
    · refine .ite (.bind .next fun _ => .put (.bind (arguments_paced h indent) fun _ => ?_))
        (.done (Nat.le_refl k))
      exact .bind .expect fun _ => .put (.yield (by omega))

/-- The leaf an access begins with pays for the last round, in which nothing follows. -/
theorem access_paced (h : r.Paced n) (indent : Int) (hrank : Method.access.rank < rank) :
    Paced (n + 1) rank c (fun _ => c + 3) (access r indent) := by
  refine .call ?_ hrank (fun _ _ => by omega) rfl
  exact .leafBind (root_paced h indent) (by omega) fun kind => .loop (suffix_paced h indent) kind

/-- An operand without unary operator is entered where a token is ahead. -/
theorem operand_paced (h : r.Paced n) (indent : Int) (hrank : Method.operand.rank < rank)
    {s : Session} (hs : s.ahead.length < n + 1) {t : Token} (ht : s.current = some t) :
    ((operand r indent).run s).Paced s rank c (fun _ => c + 3) := by
  refine Paced.callAt (Paced.lookAt ht ?_) hrank (fun _ _ => by omega) fun _ => ht ▸ Option.some_ne_none t
  refine Paced.ite (n := n + 1) ?_ (.ite ?_ (.ite ?_ ?_)) s hs
  · exact .bind .next fun _ => .leaving .lay (by omega)
  · exact table_paced h indent (by decide)
  · refine .leafBind .next (by omega) fun _ => .put ?_
    exact .leaving (.behind (body_paced h indent (by decide))) (by omega)
  · exact .bind (access_paced h indent (by decide)) fun _ => .pure (Nat.le_refl _)

/-- A unary operator is a leaf, and behind it any expression may come. -/
theorem firstOperand_paced (h : r.Paced n) (indent : Int) (hrank : Method.operand.rank < rank) :
    Paced (n + 1) rank c (fun _ => c + 3) (firstOperand r indent) := by
  refine .look .fail fun s t hs ht => ?_
  have hunary : Paced (n + 1) rank c (fun _ => c + 3) (next >>= fun _ => write t.text >>= fun _ =>
      current >>= fun after => spaceWhere (standsApart t.text after) >>= fun _ =>
        r.expression indent Powers.unary) := by
    refine .leafBind .next (by omega) fun _ => .put (.askBind fun _ => .bind .spaceWhere fun _ => ?_)
    exact .leaving (h.expression _ _ (by decide)) (by omega)
  show ((if Parser.isUnary t then _ else _ : Renderer Unit).run s).Paced s rank c _
  split
  · exact hunary s hs
  · exact operand_paced h indent hrank hs ht

/-- Of the three that its first operand leaves an expression keeps two: one goes into the last
round of its loop. The marks of a group cost nothing. -/
theorem expression_paced (h : r.Paced n) (indent limit : Int)
    (hrank : Method.expression.rank < rank) :
    Paced (n + 1) rank c (fun _ => c + 2) (expression r indent limit) := by
  have hwhole : Paced (n + 1) 2 c (fun _ => c + 2)
      (firstOperand r indent >>= fun _ => loop (fun _ => operation r indent limit) ()) :=
    .leafBind (firstOperand_paced h indent (by decide)) (by omega) fun _ =>
      .loop (fun _ => operation_paced h indent limit) ()
  refine .call (.askBind fun _ => .ite ?_ hwhole) hrank (fun _ _ => by omega) rfl
  exact .put (.bind hwhole fun _ => .lay)

/-! ## 3. Returns and loops -/

theorem returnValues_paced (h : r.Paced n) (indent : Int) :
    Paced (n + 1) rank c (fun _ => c + 1) (returnValues r indent) := by
  refine .leafBind .next (by omega) fun _ => .put (.askBind fun _ => .ite (.pure (by omega)) ?_)
  exact .put (.bind (expressions_paced h indent (by decide)) fun _ => .pure (by omega))

theorem loopBody_paced (h : r.Paced n) (indent : Int) :
    Paced n 5 c (fun _ => c + 1) (loopBody r indent) := by
  refine .bind .expect fun _ => .put (.put (.bind (h.block _ (by decide)) fun _ => ?_))
  exact .bind (closeBlock_paced _ _ (by decide)) fun _ => .pure (by omega)

theorem whileLoop_paced (h : r.Paced n) (indent : Int) :
    Paced (n + 1) rank c (fun _ => c + 1) (whileLoop r indent) := by
  refine .leafBind .next (by omega) fun _ => .put (.put (.bind (h.expression _ _ (by decide)) fun _ => ?_))
  exact .leaving (loopBody_paced h indent) (by omega)

theorem doBlock_paced (h : r.Paced n) (indent : Int) :
    Paced (n + 1) rank c (fun _ => c + 1) (doBlock r indent) := by
  refine .leafBind .next (by omega) fun _ => .put (.bind (h.block _ (by decide)) fun _ => ?_)
  exact .bind (closeBlock_paced _ _ (by decide)) fun _ => .pure (by omega)

theorem repeatLoop_paced (h : r.Paced n) (indent : Int) :
    Paced (n + 1) rank c (fun _ => c + 1) (repeatLoop r indent) := by
  refine .leafBind .next (by omega) fun _ => .put (.bind (h.block _ (by decide)) fun _ => ?_)
  refine .bind (closeBlock_paced _ _ (by decide)) fun _ => .put ?_
  exact .bind (h.expression _ _ (by decide)) fun _ => .pure (by omega)

/-! ## 4. Conditions and loops with names -/

theorem branch_paced (h : r.Paced n) (indent : Int) :
    Paced n 5 c (fun _ => c + 5) (branch r indent) := by
  refine .put (.bind (h.expression _ _ (by decide)) fun _ => .bind .expect fun _ => ?_)
  exact .put (.put (h.block _ (by decide)))

theorem nextBranch_paced (h : r.Paced n) (indent : Int) :
    Paced n 5 k (Paced.stake k) (nextBranch r indent) := by
  refine .askBind fun _ => .ite ?_ (.done (Nat.le_refl k))
  exact .bind (closeBlock_paced _ _ (by decide)) fun _ => .bind (branch_paced h indent) fun _ =>
    .yield (by omega)

theorem otherwise_paced (h : r.Paced n) (indent : Int) :
    Paced n 5 (c + 1) (fun _ => c) (otherwise r indent) :=
  ifSees_paced (.bind (closeBlock_paced _ _ (by decide)) fun _ =>
    .leaving (h.block _ (by decide)) (by omega))

/-- Branches in a loop, and one that may be missing, between two leaves of the condition. -/
theorem conditional_paced (h : r.Paced n) (indent : Int) :
    Paced (n + 1) rank c (fun _ => c + 1) (conditional r indent) := by
  refine .leafBind .next (by omega) fun _ => .put (.bind (branch_paced h indent) fun _ => ?_)
  refine .bind (.loop (fun _ => nextBranch_paced h indent) ()) fun _ => ?_
  refine .bind (otherwise_paced h indent) fun _ => ?_
  exact .bind (closeBlock_paced _ _ (by decide)) fun _ => .pure (by omega)

theorem nextName_paced (names : List String) : Paced n rank k (Paced.stake k) (nextName names) := by
  refine .askBind fun _ => .ite ?_ (.done (Nat.le_refl k))
  exact .bind .next fun _ => .bind .expectName fun _ => .yield (by omega)

/-- The step of a loop may be missing. -/
theorem step_paced (h : r.Paced n) (indent : Int) :
    Paced n 5 (c + 1) (fun _ => c) (step r indent) :=
  ifSees_paced (.bind .next fun _ => .put (.put (.leaving (h.expression _ _ (by decide)) (by omega))))

theorem countingLoop_paced (h : r.Paced n) (indent : Int) (name : String) :
    Paced n 5 c (fun _ => c + 1) (countingLoop r indent name) := by
  refine .bind .next fun _ => .put (.put (.put (.put (.put (.put ?_)))))
  refine .bind (h.expression _ _ (by decide)) fun _ => .bind .expect fun _ => .put (.put ?_)
  refine .bind (h.expression _ _ (by decide)) fun _ => .bind (step_paced h indent) fun _ => ?_
  exact .leaving (loopBody_paced h indent) (by omega)

/-- Names in a loop, then expressions in one of their own. -/
theorem iteration_paced (h : r.Paced n) (indent : Int) (name : String) :
    Paced n 5 (c + 1) (fun _ => c + 1) (iteration r indent name) := by
  refine .bind (.loop nextName_paced [name]) fun names => .bind .expect fun _ => .put (.put ?_)
  refine .bind (.separated (fun _ => .lay) names) fun _ => .put (.put (.put ?_))
  refine .bind (expressions_paced h indent (by decide)) fun _ => ?_
  exact .leaving (loopBody_paced h indent) (by omega)

/-- The leaf after the first name decides between the two kinds of loop. -/
theorem forLoop_paced (h : r.Paced n) (indent : Int) :
    Paced (n + 1) rank c (fun _ => c + 1) (forLoop r indent) := by
  refine .leafBind .next (by omega) fun _ => .bind .expectName fun name => .askBind fun _ => ?_
  exact .ite (.leaving (countingLoop_paced h indent name) (by omega))
    (.leaving (iteration_paced h indent name) (by omega))

/-! ## 5. Declarations -/

theorem nextPart_paced (path : List String) : Paced n rank k (Paced.stake k) (nextPart path) := by
  refine .askBind fun _ => .ite ?_ (.done (Nat.le_refl k))
  exact .bind .next fun _ => .bind .expectName fun _ => .yield (by omega)

theorem methodName_paced (path : List String) : Paced n rank c (fun _ => c) (methodName path) := by
  refine .askBind fun _ => .ite ?_ (.pure (Nat.le_refl c))
  exact .bind .next fun _ => .bind .expectName fun _ => .pure (by omega)

/-- The name of a function is a path of names, in rounds, and may end with that of a method. -/
theorem function_paced (h : r.Paced n) (indent : Int) :
    Paced (n + 1) rank c (fun _ => c + 1) (function r indent) := by
  refine .leafBind .next (by omega) fun _ => .bind .expectName fun name => ?_
  refine .bind (.loop nextPart_paced [name]) fun path => ?_
  refine .bind (methodName_paced path) fun path => .put (.put (.bind (.writeAll path) fun _ => ?_))
  exact .bind (.behind (body_paced h indent (by decide))) fun _ => .pure (by omega)

theorem put_paced (name : Marked) : Paced n rank c (fun _ => c) name.put := by
  unfold Marked.put
  cases name.mark with
  | none => exact .lay
  | some word => exact .put (.put (.put (.put .lay)))

theorem localName_paced (hrank : Method.localName.rank < rank) :
    Paced n rank c (fun _ => c + 1) localName := by
  refine .call ?_ hrank (fun _ _ => by omega) rfl
  refine .bind .expectName fun _ => .askBind fun _ => .ite ?_ (.pure (by omega))
  exact .bind .next fun _ => .bind .expectName fun _ => .bind .expect fun _ => .pure (by omega)

theorem nextLocalName_paced (names : List Marked) :
    Paced n 5 k (Paced.stake k) (nextLocalName names) := by
  refine .askBind fun _ => .ite ?_ (.done (Nat.le_refl k))
  exact .bind .next fun _ => .bind (localName_paced (by decide)) fun _ => .yield (by omega)

theorem localFunction_paced (h : r.Paced n) (indent : Int) :
    Paced n 5 c (fun _ => c + 1) (localFunction r indent) := by
  refine .bind .next fun _ => .bind .expectName fun _ => .put (.put (.put (.put (.put ?_))))
  exact .bind (.behind (body_paced h indent (by decide))) fun _ => .pure (by omega)

theorem values_paced (h : r.Paced n) (indent : Int) :
    Paced n 5 (c + 1) (fun _ => c) (values r indent) :=
  ifSees_paced (.bind .next fun _ => .put (.put (.put
    (.leaving (expressions_paced h indent (by decide)) (by omega)))))

/-- A local function is told by the leaf after the first one. -/
theorem localNames_paced (h : r.Paced n) (indent : Int) :
    Paced (n + 1) rank c (fun _ => c + 1) (localNames r indent) := by
  refine .leafBind .next (by omega) fun _ => .askBind fun _ => .ite ?_ ?_
  · exact .leaving (localFunction_paced h indent) (by omega)
  · refine .bind (localName_paced (by decide)) fun first => ?_
    refine .bind (.loop nextLocalName_paced [first]) fun names => .put (.put ?_)
    refine .bind (.separated put_paced names) fun _ => ?_
    exact .bind (values_paced h indent) fun _ => .pure (by omega)

/-! ## 6. Assignments and calls -/

theorem target_paced (h : r.Paced n) (indent : Int) (hrank : Method.access.rank < rank) :
    Paced (n + 1) rank c (fun _ => c + 3) (target r indent) :=
  .askBind fun _ => .bind (access_paced h indent hrank) fun _ => .pure (Nat.le_refl _)

/-- A round in front of the next target takes its comma; a target that cannot be assigned to
ends the loop with a complaint. -/
theorem nextTarget_paced (h : r.Paced n) (indent : Int) (before : Target) :
    Paced n 5 k (Paced.stake k) (nextTarget r indent before) := by
  refine .ite (.askBind fun _ => .ite ?_ (.done (Nat.le_refl k))) .failNear
  refine .bind .next fun _ => .put (.put ?_)
  exact .bind (.behind (target_paced h indent (by decide))) fun _ => .yield (by omega)

/-- A target is read before it is known whether it is assigned to or called. -/
theorem assignmentOrCall_paced (h : r.Paced n) (indent : Int)
    (hrank : Method.assignmentOrCall.rank < rank) :
    Paced (n + 1) rank c (fun _ => c + 1) (assignmentOrCall r indent) := by
  refine .call ?_ hrank (fun _ _ => by omega) rfl
  refine .leafBind (target_paced h indent (by decide)) (by omega) fun first => ?_
  refine .askBind fun _ => .askBind fun _ => .ite ?_ (.ite (.pure (by omega)) .failNear)
  refine .bind (.loop (nextTarget_paced h indent) first) fun _ => .bind .expect fun _ => ?_
  refine .put (.put (.put (.bind (expressions_paced h indent (by decide)) fun _ => ?_)))
  exact .pure (by omega)

/-! ## 7. Statements and blocks -/

/-- Every form of statement takes the leaf that it is told by. -/
theorem statementOf_paced (h : r.Paced n) (indent : Int) (form : StatementForm)
    (hrank : (Method.statementOf form).rank < rank) :
    Paced (n + 1) rank c (fun _ => c + 1) (statementOf r indent form) := by
  refine .call ?_ hrank (fun _ _ => by omega) rfl
  cases form with
  | breakLoop => exact .bind .next fun _ => .put (.pure (by omega))
  | goto =>
    exact .bind .next fun _ => .bind .expectName fun _ => .put (.put (.put (.pure (by omega))))
  | label =>
    exact .bind .next fun _ => .bind .expectName fun _ => .bind .expect fun _ =>
      .put (.put (.put (.pure (by omega))))
  | empty => exact .bind .next fun _ => .put (.pure (by omega))
  | doBlock => exact doBlock_paced h indent
  | whileLoop => exact whileLoop_paced h indent
  | repeatLoop => exact repeatLoop_paced h indent
  | conditional => exact conditional_paced h indent
  | forLoop => exact forLoop_paced h indent
  | function => exact function_paced h indent
  | localNames => exact localNames_paced h indent
  | result => exact returnValues_paced h indent

/-- A statement is entered where a token is ahead. -/
theorem statement_paced (h : r.Paced n) (indent : Int) (hrank : Method.statement.rank < rank)
    {s : Session} (hs : s.ahead.length < n + 1) {t : Token} (ht : s.current = some t) :
    ((statement r indent).run s).Paced s rank c (fun _ => c + 1) := by
  refine Paced.callAt (Paced.lookAt ht ?_) hrank (fun _ _ => by omega) fun _ => ht ▸ Option.some_ne_none t
  dsimp only
  cases StatementForm.ofToken? t with
  | some form => exact statementOf_paced h indent form Nat.one_lt_two s hs
  | none => exact Paced.ite .fail (assignmentOrCall_paced h indent (by decide)) s hs

/-- A round of a block: the statement takes a leaf, and the loop ends where the block does. -/
theorem nextStatement_paced (h : r.Paced n) (indent : Int) (blank : Bool)
    (hrank : Method.statement.rank < rank) :
    Paced (n + 1) rank k (Paced.stake k) (nextStatement r indent blank) := by
  refine .look (.done (Nat.le_refl k)) fun s t hs ht => ?_
  dsimp only
  split
  · exact Paced.done (Nat.le_refl k) s hs
  · refine Paced.putAt (Paced.bindAt (statement_paced h indent hrank hs ht) (fun _ => ?_) hs)
    exact .yield (Nat.le_refl _)

/-- A block may be empty, so its last round is paid for by whoever calls for it. -/
theorem block_paced (h : r.Paced n) (indent : Int) (hrank : Method.block.rank < rank) :
    Paced (n + 1) rank (c + 1) (fun _ => c) (block r indent) := by
  refine .call ?_ hrank nofun rfl
  exact .bind (.loop (fun blank => nextStatement_paced h indent blank (by decide)) false) fun _ =>
    .pure (Nat.le_refl c)

/-- The methods for any depth are paced on fewer leaves. -/
theorem rules_paced (depth : Nat) : (Rules.ofDepth true depth).Paced depth := by
  induction depth with
  | zero =>
    exact ⟨fun _ _ _ _ hs => absurd hs (Nat.not_lt_zero _),
      fun _ _ _ hs => absurd hs (Nat.not_lt_zero _)⟩
  | succ depth ih =>
    exact ⟨fun indent limit hrank => expression_paced ih indent limit hrank,
      fun indent hrank => block_paced ih indent hrank⟩

/-- Behind the block of a program nothing but a complaint about what is left can come. -/
theorem format_paced (h : r.Paced n) : Paced n 5 (c + 1) (fun _ => c) (format r) := by
  refine .call ?_ (by decide) nofun rfl
  refine .bind (h.block 0 (by decide)) fun _ => .askBind fun t => ?_
  cases t with
  | some t => exact .failNear
  | none => exact .bind .flush fun _ => .askBind fun _ => .pure (Nat.le_refl c)

end Renderer

/-! ## 8. Formatting -/

/-- A moment told by positions: between the entry of a method and its entry in a call
nested there, behind a call that has taken a leaf, and behind a round, further tokens have
been passed; a method that needs a token is entered with one ahead. -/
structure Event.Progresses (e : Event) : Prop where
  nested : e.calls.Pairwise fun inner outer =>
    inner.method = outer.method → outer.entry.position < inner.entry.position
  exits : e.occasion = .exit → ∃ call rest, e.calls = call :: rest ∧
    (call.method.advances = true → call.entry.position < e.session.position)
  goesOn : ∀ began, e.occasion = .again began → began.position < e.session.position
  enters : e.occasion = .entry → ∃ call rest, e.calls = call :: rest ∧
    (call.method.needsToken = true → e.session.current ≠ none)

/-- Fewer leaves ahead of a place of rest are more tokens behind. -/
theorem Event.Paced.progresses {ceiling : Nat} {e : Event} {s : Session} (h : e.Paced ceiling)
    (hs : s.Rests) (hafter : e.After s) : e.Progresses where
  nested := by
    refine h.nested.imp_of_mem fun {inner outer} hinner houter hlevel hmethod => ?_
    refine Session.Follows.position_lt hs (hafter.calls outer houter) (hafter.calls inner hinner) ?_
    unfold Call.level at hlevel
    rw [hmethod] at hlevel
    omega
  exits hexit := by
    obtain ⟨call, rest, hcalls, hadvances⟩ := h.exits hexit
    have hentry := hafter.calls call (hcalls ▸ List.mem_cons_self)
    exact ⟨call, rest, hcalls, fun hmethod =>
      Session.Follows.position_lt hs hentry hafter.session (hadvances hmethod)⟩
  goesOn began hbegan :=
    Session.Follows.position_lt hs (hafter.began began hbegan) hafter.session (h.goesOn began hbegan)
  enters := h.enters

/-- Levels sink from call to call, so there are no more calls than levels. -/
theorem Event.Paced.length_le {ceiling : Nat} {e : Event} (h : e.Paced ceiling) :
    e.calls.length ≤ ceiling := by
  have hnodup : (e.calls.map Call.level).Nodup :=
    List.pairwise_map.2 (h.nested.imp fun hlt => hlt.ne)
  have hbelow : e.calls.map Call.level ⊆ List.range ceiling := by
    intro level hlevel
    obtain ⟨call, hcall, rfl⟩ := List.mem_map.1 hlevel
    exact List.mem_range.2 (h.below call hcall)
  have hlength := (List.subperm_of_subset hnodup hbelow).length_le
  rwa [List.length_map, List.length_range] at hlength

namespace Session

/-- Formatting ends with a text and with nothing ahead. -/
theorem ahead_of_format {s t : Session} {reply : Reply}
    (h : s.perform .format = .ok (reply, t)) : t.ahead = [] ∧ ∃ text, reply = .text text := by
  have hformat : (s.format >>= fun x => pure (Reply.text x.1, x.2)) = .ok (reply, t) := h
  unfold Session.format at hformat
  cases hblock : s.render s.rules.block (·.layout s.style.groups 0) with
  | error fault =>
    rw [hblock] at hformat
    cases hformat
  | ok x =>
    obtain ⟨b, style, tokens, ahead, page⟩ := x
    rw [hblock] at hformat
    cases ahead with
    | nil =>
      cases hformat
      exact ⟨rfl, _, rfl⟩
    | cons l rest => cases hformat

theorem length_ahead_start (style : Style) (tokens : List Token) :
    (start style tokens).ahead.length ≤ tokens.length := by
  have hlength := congrArg List.length (Leaf.map_token_ofTokens tokens)
  rw [List.length_map] at hlength
  exact hlength.trans_le (List.length_filter_le _ _)

end Session

namespace Renderer

/-- The methods for a session are paced on all the leaves that it has ahead. -/
theorem answer_format_paced (s : Session) (hblocks : s.style.blocks = true) :
    ((answer .format).run s).Paced s 5 1 (fun _ => 0) := by
  have hrules : (Rules.forSession s).Paced (s.ahead.length + 1) := by
    rw [Rules.forSession, hblocks]
    exact rules_paced _
  have hformat : Paced (s.ahead.length + 1) 5 (0 + 1) (fun _ => 0)
      (format (Rules.forSession s) >>= fun text => pure (Reply.text text)) :=
    .bind (format_paced hrules) fun _ => .pure (Nat.le_refl 0)
  exact hformat s (Nat.lt_succ_self _)

/-- Going through any tokens whatever ends: with a text once all of them are passed, or
with a complaint about them. Every call and every round on the way makes progress, and
both the nesting of calls and the number of rounds are in proportion to the tokens. -/
theorem format_progresses (tokens : List Token) :
    let o := (answer .format).run (Session.start .program tokens)
    o.result = (Session.start .program tokens).perform .format ∧
      ((∃ text, o.value = .ok (.text text) ∧ o.session.position = tokens.length) ∨
        ∃ fault, o.value = .error fault ∧ fault.IsGrammar) ∧
      (∀ e ∈ o.events, e.Progresses ∧ e.calls.length ≤ 5 * (tokens.length + 1)) ∧
      o.rounds ≤ 4 * (tokens.length + 1) := by
  intro o
  have hstart := Session.Rests.start .program tokens
  have hlength := Session.length_ahead_start .program tokens
  have hresult : o.result = _ := result_answer (Session.start .program tokens) .format
  have hfrom : o.From (Session.start .program tokens) := (answer .format).from_start _
  have hpaced : o.Paced (Session.start .program tokens) 5 1 (fun _ => 0) :=
    answer_format_paced (Session.start .program tokens) rfl
  refine ⟨hresult, ?_, fun e he => ⟨(hpaced.events e he).progresses hstart (hfrom.events e he), ?_⟩, ?_⟩
  · cases hvalue : o.value with
    | error fault => exact .inr ⟨fault, rfl, hpaced.complains fault hvalue⟩
    | ok reply =>
      have hperform : (Session.start .program tokens).perform .format = .ok (reply, o.session) := by
        rw [← hresult, Rendering.result, hvalue]
      obtain ⟨hahead, text, rfl⟩ := Session.ahead_of_format hperform
      refine .inl ⟨text, rfl, ?_⟩
      unfold Session.position
      rw [hahead, hfrom.moves.follows.tokens]
      rfl
  · have hcalls := (hpaced.events e he).length_le
    omega
  · have hrounds := hpaced.rounds_le
    omega

/-- What a call of a function leaves on record: which methods return, and the positions where
they were entered and where they return. -/
example :
    ((answer .format).run (Session.start .program
        [⟨.name, "f", ⟨1, 1⟩⟩, ⟨.operator, "(", ⟨1, 2⟩⟩, ⟨.operator, ")", ⟨1, 3⟩⟩])).events.filterMap
      (fun e => match e.occasion with
        | .exit => e.calls.head?.map fun call =>
            (call.method, call.entry.position, e.session.position)
        | _ => none) =
    [(.access, 0, 3), (.assignmentOrCall, 0, 3), (.statement, 0, 3), (.block, 0, 3),
      (.format, 0, 3)] := by
  decide

end Renderer

end LuaLayout
