/-
LuaLayout.Proofs.Parser.Failures — how the parsers fail.

Every parser of the grammar goes in step with itself: expressions, tables and
operands first, then statements and blocks, each from the two rules that it is
built on. A level of nesting allows one leaf more, so the rules for some leaves
go in step on all of them. So formatting is refused for no program, and what it
complains of on corresponding tokens is the same.
-/
import LuaLayout.Session
import LuaLayout.Proofs.Parser.InStep

namespace LuaLayout

/-- The rules go in step on leaves that are fewer than the bound. -/
structure Rules.Even (R : Token → Token → Prop) (n : Nat) (r : Rules) : Prop where
  expression : ∀ limit, Parser.Even R n (r.expression limit)
  block : Parser.Even R n r.block

namespace Token.Faithful

variable {R : Token → Token → Prop} {t u : Token}

theorem isOperator (hR : Faithful R) (h : R t u) (text : String) :
    t.isOperator text = u.isOperator text := by
  simp only [Token.isOperator, hR.kind h, hR.text h]

theorem isKeyword (hR : Faithful R) (h : R t u) (text : String) :
    t.isKeyword text = u.isKeyword text := by
  simp only [Token.isKeyword, hR.kind h, hR.text h]

theorem isEllipsis (hR : Faithful R) (h : R t u) :
    Parser.isEllipsis t = Parser.isEllipsis u := by
  simp only [Parser.isEllipsis, hR.kind h, hR.text h]

theorem binaryPowers? (hR : Faithful R) (h : R t u) :
    Parser.binaryPowers? t = Parser.binaryPowers? u := by
  simp only [Parser.binaryPowers?, hR.kind h, hR.text h]

theorem isUnary (hR : Faithful R) (h : R t u) : Parser.isUnary t = Parser.isUnary u := by
  simp only [Parser.isUnary, hR.kind h, hR.text h]

theorem isLiteral (hR : Faithful R) (h : R t u) : Parser.isLiteral t = Parser.isLiteral u := by
  simp only [Parser.isLiteral, hR.kind h]

theorem endsResult (hR : Faithful R) (h : R t u) : Parser.endsResult t = Parser.endsResult u := by
  simp only [Parser.endsResult, hR.kind h, hR.text h]

theorem endsBlock (hR : Faithful R) (h : R t u) : Parser.endsBlock t = Parser.endsBlock u := by
  simp only [Parser.endsBlock, hR.kind h, hR.text h]

theorem ofToken? (hR : Faithful R) (h : R t u) :
    StatementForm.ofToken? t = StatementForm.ofToken? u := by
  simp only [StatementForm.ofToken?, hR.kind h, hR.text h]

end Token.Faithful

namespace Parser

variable {R : Token → Token → Prop} {n : Nat} {r : Rules}

/-! ## 1. Expressions and tables -/

/-- Related tokens have the same powers, so both runs go on behind an operand or neither does. -/
theorem operation_inStep (hR : Token.Faithful R) (hr : r.Even R n) (limit : Int) :
    InStep R (n + 1) given (Option.Rel Free) (operation r limit) (operation r limit) := by
  refine InStep.current.bind fun x y hxy => ?_
  have hpowers : x.bind (continuing? limit) = y.bind (continuing? limit) :=
    eq_of_rel (h := (·.bind (continuing? limit))) hxy fun t u htu => by
      simp only [Option.bind_some, continuing?, hR.binaryPowers? htu]
  rw [hpowers]
  cases y.bind (continuing? limit) with
  | none => exact .stop
  | some powers => exact .go (.nextThen (hr.expression powers.right))

theorem expressions_even (hR : Token.Faithful R) (hr : r.Even R n) : Even R n (expressions r) :=
  (hr.expression 0).bind fun _ _ _ =>
    ((InStep.moreAfter hR (hr.expression 0)).mono (Nat.le_succ n)).bind fun _ _ _ => .pure trivial

/-- The kind of a field shows in its first two tokens. -/
theorem field_even (hR : Token.Faithful R) (hr : r.Even R n) : Even R n (field r) := by
  refine InStep.current.bind fun x y hxy => ?_
  have hvalue : Even R n (r.expression 0) := hr.expression 0
  cases hxy with
  | none => exact .fail
  | some htu =>
    refine .ite (hR.isOperator htu "[") ?_ ?_
    · refine InStep.next.forget.bind fun _ _ _ => hvalue.bind fun _ _ _ => ?_
      refine (InStep.expect hR "]").forget.bind fun _ _ _ => ?_
      refine (InStep.expect hR "=").forget.bind fun _ _ _ => ?_
      exact hvalue.bind fun _ _ _ => .pure trivial
    · refine (InStep.seesSecond hR "=").bind fun _ _ hbc => ?_
      refine .ite (by rw [hR.kind htu, hbc]) ?_ ?_
      · refine InStep.next.forget.bind fun _ _ _ => InStep.next.forget.bind fun _ _ _ => ?_
        exact hvalue.bind fun _ _ _ => .pure trivial
      · exact hvalue.bind fun _ _ _ => .pure trivial

theorem seesSeparator_inStep (hR : Token.Faithful R) :
    InStep R n (fun _ => 0) Eq seesSeparator seesSeparator :=
  (InStep.sees hR ",").bind fun _ _ hbc => (InStep.sees hR ";").bind fun _ _ hde =>
    .pure (by rw [hbc, hde])

theorem nextField_inStep (hR : Token.Faithful R) (hr : r.Even R n) :
    InStep R (n + 1) given (Option.Rel Free) (nextField r) (nextField r) :=
  (seesSeparator_inStep hR).bind fun _ _ hbc => (InStep.seesSecond hR "\x7d").bind fun _ _ hde =>
    .ite (by rw [hbc, hde]) (.go (.nextThen (field_even hR hr))) .stop

theorem table_takes (hR : Token.Faithful R) (hr : r.Even R n) : Takes R (n + 1) (table r) := by
  refine (InStep.expect hR "\x7b").thenBind fun _ _ _ => (InStep.sees hR "\x7d").bind fun _ _ hbc => ?_
  refine .ite hbc ?_ ?_
  · exact InStep.next.forget.bind fun _ _ _ => .pure trivial
  · refine (field_even hR hr).bind fun _ _ _ => ?_
    refine ((InStep.many (nextField_inStep hR hr)).mono (Nat.le_succ n)).bind fun _ _ _ => ?_
    refine (seesSeparator_inStep hR).bind fun _ _ hde => ?_
    have hclosing : ∀ (x y : Option Leaf) (l m : Leaf) (first first' : Field)
        (more more' : List (Leaf × Field)), InStep R n (fun _ => 0) Free
          (expect "\x7d" >>= fun closing => pure (Table.fields l first more x closing))
          (expect "\x7d" >>= fun closing => pure (Table.fields m first' more' y closing)) :=
      fun _ _ _ _ _ _ _ _ => (InStep.expect hR "\x7d").forget.bind fun _ _ _ => .pure trivial
    refine .ite hde ?_ ?_
    · exact (InStep.go InStep.next).forget.bind fun _ _ _ => hclosing _ _ _ _ _ _ _ _
    · exact (InStep.pure (V := Free) trivial).bind fun _ _ _ => hclosing _ _ _ _ _ _ _ _

/-! ## 2. Functions and operands -/

/-- Whether another name follows a comma shows in the token behind it. -/
theorem nextParameter_inStep (hR : Token.Faithful R) :
    InStep R n given (Option.Rel Free) nextParameter nextParameter := by
  refine (InStep.sees hR ",").bind fun _ _ hbc => InStep.get.bind fun _ _ hst => ?_
  have hdots := eq_of_rel (h := Option.any isEllipsis) (correspond_tokenAt hst 1)
    fun t u htu => hR.isEllipsis htu
  exact .ite (by rw [hbc, hdots])
    (.go ((InStep.nextThen (n := n) (InStep.expectName hR).forget).mono (Nat.le_succ n))) .stop

theorem parameters_takes (hR : Token.Faithful R) : Takes R (n + 1) parameters := by
  refine (InStep.expect hR "(").thenBind fun _ _ _ => (InStep.sees hR ")").bind fun _ _ hbc => ?_
  have hclosing : Even R n (expect ")") := (InStep.expect hR ")").forget
  refine .ite hbc (hclosing.bind fun _ _ _ => .pure trivial) ?_
  refine (InStep.currentIs fun t u htu => hR.isEllipsis htu).bind fun _ _ hde => ?_
  refine .ite hde ?_ ?_
  · exact InStep.next.forget.bind fun _ _ _ => hclosing.bind fun _ _ _ => .pure trivial
  · refine (InStep.expectName hR).forget.bind fun _ _ _ => ?_
    refine (InStep.many (nextParameter_inStep hR)).bind fun _ _ _ => ?_
    have hlast : Takes R n (nextThen next) :=
      (InStep.nextThen (n := n) InStep.next.forget).mono (Nat.le_succ n)
    refine (InStep.ifSees hR hlast).forget.bind fun _ _ _ => ?_
    exact hclosing.bind fun _ _ _ => .pure trivial

theorem body_takes (hR : Token.Faithful R) (hr : r.Even R n) : Takes R (n + 1) (body r) :=
  (parameters_takes hR).thenBind fun _ _ _ => hr.block.bind fun _ _ _ =>
    (InStep.expect hR "end").forget.bind fun _ _ _ => .pure trivial

/-- What follows an access shows in one token, and is of one kind in both runs. -/
theorem suffix_inStep (hR : Token.Faithful R) (hr : r.Even R n) :
    InStep R (n + 1) given (Option.Rel fun a b => a.kind = b.kind) (suffix r) (suffix r) := by
  refine InStep.current.bind fun x y hxy => ?_
  cases hxy with
  | none => exact .stop
  | some htu =>
    refine .ite (by rw [hR.kind htu]) (InStep.next.thenGive fun _ _ _ => .pure (.some rfl)) ?_
    refine .ite (by rw [hR.isOperator htu, hR.isOperator htu]) ?_ ?_
    · exact InStep.next.thenGive fun _ _ _ => (InStep.expectName hR).forget.bind fun _ _ _ =>
        .pure (.some rfl)
    refine .ite (hR.isOperator htu "[") ?_ ?_
    · exact InStep.next.thenGive fun _ _ _ => (hr.expression 0).bind fun _ _ _ =>
        (InStep.expect hR "]").forget.bind fun _ _ _ => .pure (.some rfl)
    refine .ite (hR.isOperator htu "\x7b") ?_ ?_
    · exact (table_takes hR hr).thenGive fun _ _ _ => .pure (.some rfl)
    refine .ite (hR.isOperator htu "(") ?_ .stop
    refine InStep.next.thenGive fun _ _ _ => (InStep.sees hR ")").bind fun _ _ hbc => ?_
    have hclosing : Even R n (expect ")") := (InStep.expect hR ")").forget
    refine .ite hbc (hclosing.bind fun _ _ _ => .pure (.some rfl)) ?_
    exact (expressions_even hR hr).bind fun _ _ _ => hclosing.bind fun _ _ _ => .pure (.some rfl)

theorem root_inStep (hR : Token.Faithful R) (hr : r.Even R n) :
    InStep R (n + 1) (fun _ => 1) (fun a b => a.kind = b.kind) (root r) (root r) := by
  refine InStep.current.bind fun x y hxy => ?_
  cases hxy with
  | none => exact .fail
  | some htu =>
    refine .ite (hR.isOperator htu "(") ?_ ?_
    · exact InStep.next.thenBind fun _ _ _ => (hr.expression 0).bind fun _ _ _ =>
        (InStep.expect hR ")").forget.bind fun _ _ _ => .pure rfl
    · exact .ite (by rw [hR.kind htu]) (InStep.next.thenBind fun _ _ _ => .pure rfl) .fail

/-- Accesses that are read in step stand for the same. -/
theorem access_inStep (hR : Token.Faithful R) (hr : r.Even R n) :
    InStep R (n + 1) (fun _ => 1) (fun a b => a.kind = b.kind) (access r) (access r) := by
  refine (root_inStep hR hr).thenBind fun a b hab => ?_
  refine ((InStep.many (suffix_inStep hR hr)).mono (Nat.le_succ n)).bind fun as bs habs => ?_
  have hkinds : as.map Suffix.kind = bs.map Suffix.kind := by
    induction habs with
    | nil => rfl
    | cons hkind _ ih => rw [List.map_cons, List.map_cons, hkind, ih]
  refine .pure ?_
  rw [Access.kind, Access.kind, ← List.getLast?_map, ← List.getLast?_map, hkinds, hab]

/-- An operand without unary operator is read where a token is ahead. -/
theorem simple_agree (hR : Token.Faithful R) (hr : r.Even R n) {l m : Leaf} {s t : List Leaf}
    (hlm : R l.token m.token) (hst : Leaf.Correspond R s t) (hlen : (l :: s).length < n + 1) :
    Agree R (fun a b s' t' => Free a b ∧ Leaf.Correspond R s' t' ∧ s'.length + 1 ≤ (l :: s).length)
      (simple r (l :: s)) (simple r (m :: t)) := by
  refine InStep.ahead (fun _ => 1) hlm ?_ hst hlen
  refine .ite (hR.isLiteral hlm) (InStep.next.thenBind fun _ _ _ => .pure trivial) ?_
  refine .ite (hR.isOperator hlm "\x7b") ?_ ?_
  · exact (table_takes hR hr).thenBind fun _ _ _ => .pure trivial
  refine .ite (hR.isKeyword hlm "function") ?_ ?_
  · exact InStep.next.thenBind fun _ _ _ =>
      ((body_takes hR hr).mono (Nat.le_succ n)).forget.bind fun _ _ _ => .pure trivial
  · exact (access_inStep hR hr).thenBind fun _ _ _ => .pure trivial

theorem operand_takes (hR : Token.Faithful R) (hr : r.Even R n) : Takes R (n + 1) (operand r) := by
  intro s t hst hlen
  cases hst with
  | nil => exact .complaint .none
  | cons hlm hrest =>
    refine .ite (hR.isUnary hlm) ?_ (simple_agree hR hr hlm hrest hlen)
    have hunary : Takes R (n + 1) (next >>= fun operator =>
        r.expression Powers.unary >>= fun argument => pure (Operand.unary operator argument)) :=
      InStep.next.thenBind fun _ _ _ => (hr.expression _).bind fun _ _ _ => .pure trivial
    exact hunary _ _ (.cons hlm hrest) hlen

theorem expression_even (hR : Token.Faithful R) (hr : r.Even R n) (limit : Int) :
    Even R (n + 1) (expression r limit) :=
  (operand_takes hR hr).forget.bind fun _ _ _ =>
    (InStep.many (operation_inStep hR hr limit)).bind fun _ _ _ => .pure trivial

/-! ## 3. Statements -/

theorem result_takes (hR : Token.Faithful R) (hr : r.Even R n) : Takes R (n + 1) (result r) := by
  refine InStep.next.thenBind fun _ _ _ => InStep.current.bind fun _ _ hxy => ?_
  refine .ite (eq_of_rel hxy fun t u htu => hR.endsResult htu) (.pure trivial) ?_
  exact (expressions_even hR hr).bind fun _ _ _ => .pure trivial

theorem branch_takes (hR : Token.Faithful R) (hr : r.Even R n) : Takes R (n + 1) (branch r) :=
  InStep.next.thenBind fun _ _ _ => (hr.expression 0).bind fun _ _ _ =>
    (InStep.expect hR "then").forget.bind fun _ _ _ => hr.block.bind fun _ _ _ => .pure trivial

theorem conditional_takes (hR : Token.Faithful R) (hr : r.Even R n) :
    Takes R (n + 1) (conditional r) := by
  have hbranch := branch_takes hR hr
  refine hbranch.thenBind fun _ _ _ => ?_
  refine ((InStep.many (InStep.ifSees hR hbranch)).mono (Nat.le_succ n)).bind fun _ _ _ => ?_
  refine ((InStep.ifSees hR (InStep.nextThen hr.block)).mono (Nat.le_succ n)).forget.bind fun _ _ _ => ?_
  exact (InStep.expect hR "end").forget.bind fun _ _ _ => .pure trivial

theorem forLoop_takes (hR : Token.Faithful R) (hr : r.Even R n) : Takes R (n + 1) (forLoop r) := by
  have hvalue : Even R n (r.expression 0) := hr.expression 0
  have hexpect : ∀ text, Even R n (expect text) := fun text => (InStep.expect hR text).forget
  refine InStep.next.thenBind fun _ _ _ => (InStep.expectName hR).forget.bind fun _ _ _ => ?_
  refine (InStep.sees hR "=").bind fun _ _ hbc => .ite hbc ?_ ?_
  · refine InStep.next.forget.bind fun _ _ _ => hvalue.bind fun _ _ _ => ?_
    refine (hexpect ",").bind fun _ _ _ => hvalue.bind fun _ _ _ => ?_
    refine ((InStep.ifSees hR (InStep.nextThen hvalue)).mono (Nat.le_succ n)).forget.bind fun _ _ _ => ?_
    exact (hexpect "do").bind fun _ _ _ => hr.block.bind fun _ _ _ =>
      (hexpect "end").bind fun _ _ _ => .pure trivial
  · refine ((InStep.moreAfter hR (n := n) (InStep.expectName hR).forget).mono
      (Nat.le_succ n)).bind fun _ _ _ => ?_
    refine (hexpect "in").bind fun _ _ _ => (expressions_even hR hr).bind fun _ _ _ => ?_
    exact (hexpect "do").bind fun _ _ _ => hr.block.bind fun _ _ _ =>
      (hexpect "end").bind fun _ _ _ => .pure trivial

theorem function_takes (hR : Token.Faithful R) (hr : r.Even R n) : Takes R (n + 1) (function r) := by
  have hname : Even R n expectName := (InStep.expectName hR).forget
  refine InStep.next.thenBind fun _ _ _ => hname.bind fun _ _ _ => ?_
  refine ((InStep.moreAfter hR hname).mono (Nat.le_succ n)).bind fun _ _ _ => ?_
  refine ((InStep.ifSees hR (InStep.nextThen hname)).mono (Nat.le_succ n)).forget.bind fun _ _ _ => ?_
  exact ((body_takes hR hr).mono (Nat.le_succ n)).forget.bind fun _ _ _ => .pure trivial

theorem localName_even (hR : Token.Faithful R) : Even R n localName := by
  have hmark : Takes R n mark := by
    refine (InStep.thenBind (n := n) InStep.next fun _ _ _ => ?_).mono (Nat.le_succ n)
    exact (InStep.expectName hR).forget.bind fun _ _ _ =>
      (InStep.expect hR ">").forget.bind fun _ _ _ => .pure trivial
  exact (InStep.expectName hR).forget.bind fun _ _ _ =>
    (InStep.ifSees hR hmark).forget.bind fun _ _ _ => .pure trivial

theorem localNames_takes (hR : Token.Faithful R) (hr : r.Even R n) :
    Takes R (n + 1) (localNames r) := by
  refine InStep.next.thenBind fun _ _ _ => (InStep.sees hR "function").bind fun _ _ hbc => ?_
  refine .ite hbc ?_ ?_
  · refine InStep.next.forget.bind fun _ _ _ => (InStep.expectName hR).forget.bind fun _ _ _ => ?_
    exact ((body_takes hR hr).mono (Nat.le_succ n)).forget.bind fun _ _ _ => .pure trivial
  · refine (localName_even hR).bind fun _ _ _ => ?_
    refine ((InStep.moreAfter hR (localName_even hR)).mono (Nat.le_succ n)).bind fun _ _ _ => ?_
    exact ((InStep.ifSees hR (InStep.nextThen (expressions_even hR hr))).mono
      (Nat.le_succ n)).forget.bind fun _ _ _ => .pure trivial

/-- Targets of one kind can both be assigned to, or the complaints are near related tokens. -/
theorem requireAssignable_inStep {x y : Option Token} {a b : Access} (hxy : Option.Rel R x y)
    (hab : a.kind = b.kind) :
    InStep R n (fun _ => 0) Free (requireAssignable x a) (requireAssignable y b) := by
  rw [requireAssignable, requireAssignable, hab]
  split
  · exact .pure trivial
  · exact .failNear hxy

theorem assignable_even (hR : Token.Faithful R) (hr : r.Even R n) : Even R n (assignable r) :=
  InStep.current.bind fun _ _ hxy =>
    (((access_inStep hR hr).imp (fun _ _ hab => hab) fun _ => Nat.zero_le 1).mono
      (Nat.le_succ n)).bind fun _ _ hab =>
        (requireAssignable_inStep hxy hab).bind fun _ _ _ => .pure trivial

/-- An access is a call or a target in both runs, since it is of one kind. -/
theorem assignmentOrCall_takes (hR : Token.Faithful R) (hr : r.Even R n) :
    Takes R (n + 1) (assignmentOrCall r) := by
  refine InStep.current.bind fun _ _ hxy => (access_inStep hR hr).thenBind fun a b hab => ?_
  refine (InStep.sees hR ",").bind fun _ _ hbc => (InStep.sees hR "=").bind fun _ _ hde => ?_
  refine .ite (by rw [hbc, hde]) ?_ ?_
  · refine (requireAssignable_inStep hxy hab).bind fun _ _ _ => ?_
    refine ((InStep.moreAfter hR (assignable_even hR hr)).mono (Nat.le_succ n)).bind fun _ _ _ => ?_
    exact (InStep.expect hR "=").forget.bind fun _ _ _ =>
      (expressions_even hR hr).bind fun _ _ _ => .pure trivial
  · rw [hab]
    split
    · exact .pure trivial
    · exact .failNear hxy

/-- Every form of statement takes the token that it is told by. -/
theorem statementOf_takes (hR : Token.Faithful R) (hr : r.Even R n) (form : StatementForm) :
    Takes R (n + 1) (statementOf r form) := by
  have hexpect : ∀ text, Even R n (expect text) := fun text => (InStep.expect hR text).forget
  have hname : Even R n expectName := (InStep.expectName hR).forget
  cases form with
  | breakLoop => exact InStep.next.thenBind fun _ _ _ => .pure trivial
  | goto => exact InStep.next.thenBind fun _ _ _ => hname.bind fun _ _ _ => .pure trivial
  | label =>
    exact InStep.next.thenBind fun _ _ _ => hname.bind fun _ _ _ =>
      (hexpect "::").bind fun _ _ _ => .pure trivial
  | empty => exact InStep.next.thenBind fun _ _ _ => .pure trivial
  | doBlock =>
    exact InStep.next.thenBind fun _ _ _ => hr.block.bind fun _ _ _ =>
      (hexpect "end").bind fun _ _ _ => .pure trivial
  | whileLoop =>
    exact InStep.next.thenBind fun _ _ _ => (hr.expression 0).bind fun _ _ _ =>
      (hexpect "do").bind fun _ _ _ => hr.block.bind fun _ _ _ =>
        (hexpect "end").bind fun _ _ _ => .pure trivial
  | repeatLoop =>
    exact InStep.next.thenBind fun _ _ _ => hr.block.bind fun _ _ _ =>
      (hexpect "until").bind fun _ _ _ => (hr.expression 0).bind fun _ _ _ => .pure trivial
  | conditional => exact conditional_takes hR hr
  | forLoop => exact forLoop_takes hR hr
  | function => exact function_takes hR hr
  | localNames => exact localNames_takes hR hr
  | result => exact result_takes hR hr

/-- A statement is read where a token is ahead. -/
theorem statement_agree (hR : Token.Faithful R) (hr : r.Even R n) {l m : Leaf} {s t : List Leaf}
    (hlm : R l.token m.token) (hst : Leaf.Correspond R s t) (hlen : (l :: s).length < n + 1) :
    Agree R (fun a b s' t' => Free a b ∧ Leaf.Correspond R s' t' ∧ s'.length + 1 ≤ (l :: s).length)
      (statement r (l :: s)) (statement r (m :: t)) := by
  refine InStep.ahead (fun _ => 1) hlm ?_ hst hlen
  simp only [hR.ofToken? hlm]
  cases StatementForm.ofToken? m.token with
  | some form => exact statementOf_takes hR hr form
  | none => exact .ite (by rw [hR.binaryPowers? hlm]) .fail (assignmentOrCall_takes hR hr)

/-- A block ends in both runs or goes on in both. -/
theorem nextStatement_inStep (hR : Token.Faithful R) (hr : r.Even R n) :
    InStep R (n + 1) given (Option.Rel Free) (nextStatement r) (nextStatement r) := by
  intro s t hst hlen
  cases hst with
  | nil => exact .ok ⟨.none, .nil, Nat.le_refl _⟩
  | cons hlm hrest =>
    refine .ite (hR.endsBlock hlm) (InStep.stop _ _ (.cons hlm hrest) hlen) ?_
    rw [map_eq_pure_bind]
    exact (statement_agree hR hr hlm hrest hlen).bind fun a b s' t' ⟨hab, hst', hle⟩ =>
      .ok ⟨.some hab, hst', hle⟩

theorem block_even (hR : Token.Faithful R) (hr : r.Even R n) : Even R (n + 1) (block r) :=
  (InStep.many (nextStatement_inStep hR hr)).bind fun _ _ _ => .pure trivial

end Parser

/-! ## 4. The rules -/

namespace Rules

variable {R : Token → Token → Prop}

/-- Each level of nesting allows one leaf more. -/
theorem ofDepth_even (hR : Token.Faithful R) (n : Nat) : (ofDepth true n).Even R n := by
  induction n with
  | zero =>
    exact ⟨fun _ _ _ _ hlen => absurd hlen (Nat.not_lt_zero _),
      fun _ _ _ hlen => absurd hlen (Nat.not_lt_zero _)⟩
  | succ n ih => exact ⟨Parser.expression_even hR ih, Parser.block_even hR ih⟩

/-- Blocks of corresponding leaves are read alike: to corresponding rests, or up
to the same complaint near corresponding tokens. -/
theorem forLeaves_block_agree (hR : Token.Faithful R) {s t : List Leaf}
    (hst : Leaf.Correspond R s t) :
    Parser.Agree R (fun _ _ s' t' => Leaf.Correspond R s' t')
      ((forLeaves true s).block s) ((forLeaves true t).block t) := by
  rw [forLeaves, forLeaves, ← hst.length_eq]
  exact ((ofDepth_even hR (s.length + 1)).block s t hst (Nat.lt_succ_self _)).imp
    fun _ _ _ _ h => h.2.1

end Rules

/-! ## 5. Programs -/

/-- The fault for a complaint about a program given by its tokens. -/
def faultIn (tokens : List Token) (what : Complaint) (near : Option Token) : Fault :=
  (Session.start .program tokens).complaint what near

/-- A program given by its tokens is read as a block that must reach the end. -/
theorem formatTokens_eq (tokens : List Token) : formatTokens .program tokens =
    match (Rules.forLeaves true (Leaf.ofTokens tokens).2).block (Leaf.ofTokens tokens).2 with
    | .error failure => .error ((Session.start .program tokens).faultOf failure)
    | .ok (_, l :: _) => .error (faultIn tokens (.expected "<eof>") (some l.token))
    | .ok (tree, []) => .ok (Session.endLine
        ((((Page.empty.queueAll ((Leaf.ofTokens tokens).1.map (·.text))).layAll
          (tree.layout false 0)).flush 0).text)) := by
  rw [formatTokens, Session.format, Session.render]
  have hahead : (Session.start .program tokens).ahead = (Leaf.ofTokens tokens).2 := rfl
  have hrules : (Session.start .program tokens).rules =
      Rules.forLeaves true (Leaf.ofTokens tokens).2 := rfl
  rw [hahead, hrules, StateT.run]
  cases (Rules.forLeaves true (Leaf.ofTokens tokens).2).block (Leaf.ofTokens tokens).2 with
  | error failure => rfl
  | ok found =>
    obtain ⟨tree, rest⟩ := found
    cases rest with
    | nil => rfl
    | cons l rest => rfl

/-- Programs of corresponding tokens, comments aside, are both formatted, or they
both fail with the same complaint near corresponding tokens. -/
theorem formatTokens_agree {R : Token → Token → Prop} (hR : Token.Faithful R)
    {tokens more : List Token}
    (h : Leaf.Correspond R (Leaf.ofTokens tokens).2 (Leaf.ofTokens more).2) :
    ((∃ text, formatTokens .program tokens = .ok text) ∧
        ∃ text, formatTokens .program more = .ok text) ∨
      ∃ what near near', Option.Rel R near near' ∧
        formatTokens .program tokens = .error (faultIn tokens what near) ∧
        formatTokens .program more = .error (faultIn more what near') := by
  have hread := Rules.forLeaves_block_agree hR h
  rw [formatTokens_eq, formatTokens_eq]
  generalize (Rules.forLeaves true (Leaf.ofTokens tokens).2).block (Leaf.ofTokens tokens).2 = x at hread
  generalize (Rules.forLeaves true (Leaf.ofTokens more).2).block (Leaf.ofTokens more).2 = y at hread
  cases hread with
  | complaint hnear => exact .inr ⟨_, _, _, hnear, rfl, rfl⟩
  | ok hrest =>
    cases hrest with
    | nil => exact .inl ⟨⟨_, rfl⟩, _, rfl⟩
    | cons hlm _ => exact .inr ⟨_, _, _, .some hlm, rfl, rfl⟩

end LuaLayout
