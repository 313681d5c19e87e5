/-
LuaLayout.Proofs.Grouping.Reading — the tree with its signed numbers taken apart
is what is read where no sign is joined.

Its leaves are those of the tree, with two leaves for every signed number, and
it fits where the tree fits. Only expressions that begin with a signed number
need care: a minus takes the operators that bind tighter than it, and that is at
most one power, because the right operand of a power takes every further one.
Everywhere else the token after a part is no number, so it is the same token.
-/
import LuaLayout.Proofs.Grouping.Spread
import LuaLayout.Proofs.Layout.RereadParts

namespace LuaLayout

open Leaf (front)

section

variable {place : Position → Position} {limit : Int} {next : Option Token}

/-! ## 1. Powers -/

/-- An expression is read as far as it goes. -/
theorem Expr.Fits.ends {e : Expr} (h : e.Fits limit next) : EndsExpr limit next := by
  obtain ⟨operand, operations⟩ := e
  exact (operationsFit_iff.1 h.2).2

/-- Only a power binds tighter than a minus, or than the limit of its own right
operand. -/
theorem powers_of_operator {operator : Token} {powers : Powers}
    (h : Parser.binaryPowers? operator = some powers) :
    powers.right ≤ 13 ∧ (Grouping.isPower operator.text = true → powers = ⟨14, 13⟩) ∧
      (Grouping.isPower operator.text = false → powers.left ≤ Powers.unary) := by
  have hall : ∀ p ∈ Powers.table, p.2.right ≤ 13 ∧
      (Grouping.isPower p.1 = true → p.2 = ⟨14, 13⟩) ∧
        (Grouping.isPower p.1 = false → p.2.left ≤ Powers.unary) := by decide
  exact hall _ (mem_table_of_binaryPowers? h).1

/-- What ends an expression under any of the limits that are used ends the operand
of a minus. -/
theorem EndsExpr.unary (h : EndsExpr limit next) (hlimit : limit ≤ 13) :
    EndsExpr Powers.unary next := by
  refine endsExpr_of_le fun u hu powers hpowers => Int.not_lt.1 fun hlt => ?_
  obtain rfl : next = some u := hu
  have hnone : Parser.continuing? limit u = none := h
  rw [continuing?_eq_some_iff.2 ⟨hpowers, left_of_unary hpowers hlt hlimit⟩] at hnone
  cases hnone

/-- A minus takes a power with it, and the other operators stay. -/
theorem OperationsFit.power {operations : List (Leaf × Expr)}
    (h : OperationsFit limit next operations) (hlimit : limit ≤ 13) :
    OperationsFit Powers.unary
        (front (operationsLeaves (operations.drop (powerCount operations))) next)
        (operations.take (powerCount operations)) ∧
      OperationsFit limit next (operations.drop (powerCount operations)) := by
  cases operations with
  | nil => exact ⟨EndsExpr.unary h hlimit, h⟩
  | cons p rest =>
    obtain ⟨operator, right⟩ := p
    obtain ⟨⟨powers, hpowers, hright⟩, hrest⟩ := id h
    obtain ⟨hbinary, -⟩ := continuing?_eq_some_iff.1 hpowers
    obtain ⟨hthirteen, hpower, hother⟩ := powers_of_operator hbinary
    cases hcount : Grouping.isPower operator.token.text with
    | true =>
      -- The right operand of the power took every further power.
      have hlt : Powers.unary < powers.left := by rw [hpower hcount]; decide
      rw [powerCount_power hcount]
      exact ⟨⟨⟨powers, continuing?_eq_some_iff.2 ⟨hbinary, hlt⟩, hright⟩,
        hright.ends.unary hthirteen⟩, hrest⟩
    | false =>
      rw [powerCount_other hcount]
      refine ⟨endsExpr_of_le fun u hu q hq => ?_, h⟩
      obtain rfl : operator.token = u := Option.some.inj hu
      obtain rfl := Option.some.inj (hbinary.symm.trans hq)
      exact hother hcount

/-- An expression whose first operand is a minus and a number. -/
theorem Expr.fits_ofSigned {operand : Operand} {minus number : Leaf}
    {operations : List (Leaf × Expr)} (hsigned : operand.signed? place = some (minus, number))
    (h : OperationsFit limit next operations) (hlimit : limit ≤ 13) :
    (Expr.ofSigned (some (minus, number)) operand operations).Fits limit next ∧
      (Expr.ofSigned (some (minus, number)) operand operations).leaves =
        operand.leaves.flatMap (Leaf.spread place) ++ operationsLeaves operations := by
  obtain ⟨hpower, hrest⟩ := h.power hlimit
  cases operand with
  | literal value =>
    obtain ⟨-, -, hkind, htext, hnumber⟩ := Leaf.of_signed? hsigned
    have hunary : Parser.isUnary minus.token = true := by
      simp [Parser.isUnary, hkind, htext, Powers.unaryOperators]
    have hliteral : Parser.isLiteral number.token = true := by simp [Parser.isLiteral, hnumber]
    refine ⟨⟨⟨hunary, hliteral, hpower⟩, hrest⟩, ?_⟩
    have hleaves := operationsLeaves_append (operations.take (powerCount operations))
      (operations.drop (powerCount operations))
    rw [List.take_append_drop] at hleaves
    simp [Expr.ofSigned, Expr.leaves, Operand.leaves, hleaves, Leaf.spread_of_signed hsigned]
  | _ => cases hsigned

/-! ## 2. The first leaf -/

theorem front_operationsSpread (operations : List (Leaf × Expr)) (next : Option Token) :
    front (operationsLeaves (operationsSpread place operations)) next =
      front (operationsLeaves operations) next := by
  cases operations <;> rfl

theorem front_commaExprsSpread (more : List (Leaf × Expr)) (next : Option Token) :
    front (commaExprsLeaves (commaExprsSpread place more)) next =
      front (commaExprsLeaves more) next := by
  cases more <;> rfl

theorem front_fieldsSpread (more : List (Leaf × Field)) (next : Option Token) :
    front (fieldsLeaves (fieldsSpread place more)) next = front (fieldsLeaves more) next := by
  cases more <;> rfl

theorem front_commaAccessesSpread (more : List (Leaf × Access)) (next : Option Token) :
    front (commaAccessesLeaves (commaAccessesSpread place more)) next =
      front (commaAccessesLeaves more) next := by
  cases more <;> rfl

theorem front_stepSpread (step : Option (Leaf × Expr)) (next : Option Token) :
    front (stepLeaves (stepSpread place step)) next = front (stepLeaves step) next := by
  cases step <;> rfl

theorem front_otherwiseSpread (otherwise : Option (Leaf × Block)) (next : Option Token) :
    front (otherwiseLeaves (otherwiseSpread place otherwise)) next =
      front (otherwiseLeaves otherwise) next := by
  cases otherwise <;> rfl

theorem Branch.head?_spread (b : Branch) : (b.spread place).leaves.head? = b.leaves.head? := by
  cases b
  rfl

theorem front_branchesSpread (bs : List Branch) (next : Option Token) :
    front (branchesLeaves (branchesSpread place bs)) next = front (branchesLeaves bs) next := by
  cases bs with
  | nil => rfl
  | cons b rest => cases b; rfl

theorem Table.head_spread (t : Table) : (t.spread place).head = t.head := by
  cases t <;> rfl

theorem Access.head_spread (a : Access) : (a.spread place).head = a.head := by
  obtain ⟨root, suffixes⟩ := a
  cases root <;> rfl

theorem Access.front_spread (a : Access) (next : Option Token) :
    front (a.spread place).leaves next = front a.leaves next := by
  obtain ⟨rest, h⟩ := a.leaves_eq
  obtain ⟨rest', h'⟩ := (a.spread place).leaves_eq
  rw [h, h', Access.head_spread]
  rfl

theorem Stat.front_spread (x : Stat) (next : Option Token) :
    front (x.spread place).leaves next = front x.leaves next := by
  cases x with
  | conditional first more otherwise closing => cases first; rfl
  | localNames word first more values => cases values <;> rfl
  | result word values => cases values <;> rfl
  | assignment first more equals values =>
    simp only [Stat.spread, Stat.leaves, Leaf.front_append, Access.front_spread]
    obtain ⟨rest, h⟩ := first.leaves_eq
    rw [h]
    rfl
  | call callee => exact callee.front_spread next
  | _ => rfl

theorem front_statementsSpread (xs : List Stat) (next : Option Token) :
    front (statementsLeaves (statementsSpread place xs)) next =
      front (statementsLeaves xs) next := by
  cases xs with
  | nil => rfl
  | cons x rest =>
    obtain ⟨l, more, h⟩ := x.leaves_eq
    simp only [statementsSpread, statementsLeaves, Leaf.front_append, Stat.front_spread]
    rw [h]
    rfl

theorem suffixesSpread_eq_map (xs : List Suffix) :
    suffixesSpread place xs = xs.map (Suffix.spread place) := by
  induction xs with
  | nil => rfl
  | cons x rest ih => rw [suffixesSpread, ih, List.map_cons]

/-- An access stands for what it stood for. -/
theorem Access.kind_spread (a : Access) : (a.spread place).kind = a.kind := by
  obtain ⟨root, suffixes⟩ := a
  have hroot : (root.spread place).kind = root.kind := by cases root <;> rfl
  have hsuffix : ∀ x : Suffix, (x.spread place).kind = x.kind := by
    intro x
    cases x with
    | call opening arguments closing => cases arguments <;> rfl
    | _ => rfl
  rw [Access.spread, Access.kind, Access.kind, suffixesSpread_eq_map, List.getLast?_map,
    Option.map_map, hroot]
  congr 2
  funext x
  exact hsuffix x

/-- Where a signed number was, a minus is now in front, which is none of the texts. -/
theorem NoneOf.spread {texts : List String} {leaves : List Leaf}
    (h : NoneOf texts (front leaves next)) (hminus : "-" ∉ texts) :
    NoneOf texts (front (leaves.flatMap (Leaf.spread place)) next) := by
  cases leaves with
  | nil => exact h
  | cons l rest =>
    cases hsigned : l.signed? place with
    | none => rwa [List.flatMap_cons, Leaf.spread_of_plain hsigned]
    | some p =>
      obtain ⟨minus, number⟩ := p
      obtain ⟨-, -, -, htext, -⟩ := Leaf.of_signed? hsigned
      rw [List.flatMap_cons, Leaf.spread_of_signed hsigned]
      rintro t ⟨⟩
      rwa [htext]

/-! ## 3. Leaves without expressions -/

theorem Leaf.NamesFit.unsigned {separator : String} {more : List (Leaf × Leaf)}
    (h : NamesFit separator more) (hfixed : separator ∈ fixedTexts := by decide) :
    ∀ l ∈ Leaf.ofPairs Leaf.alone more, l.Unsigned := by
  induction more with
  | nil => simp [Leaf.ofPairs]
  | cons p rest ih =>
    obtain ⟨mark, name⟩ := p
    obtain ⟨⟨hmark, hname⟩, hrest⟩ := List.forall_mem_cons.1 h
    simp only [Leaf.ofPairs, Leaf.alone_eq, List.cons_append, List.nil_append, List.forall_mem_cons]
    exact ⟨hmark.unsigned hfixed, hname.unsigned, ih hrest⟩

theorem Leaf.unsigned_of_ellipsis {l : Leaf} (h : Parser.isEllipsis l.token = true) :
    l.Unsigned := by
  rw [Parser.isEllipsis, Bool.and_eq_true, beq_iff_eq] at h
  exact Leaf.unsigned_of_kind (by rw [h.1]; decide)

theorem Parameters.MoreFit.unsigned {more : List (Leaf × Leaf)} (h : MoreFit more) :
    ∀ l ∈ Leaf.ofPairs Leaf.alone more, l.Unsigned := by
  induction more with
  | nil => simp [Leaf.ofPairs]
  | cons p rest ih =>
    obtain ⟨comma, name⟩ := p
    have hparts : comma.Unsigned ∧ name.Unsigned ∧
        ∀ l ∈ Leaf.ofPairs Leaf.alone rest, l.Unsigned := by
      cases rest with
      | nil => exact ⟨h.1.unsigned, h.2.elim Leaf.IsName.unsigned Leaf.unsigned_of_ellipsis, by
          simp [Leaf.ofPairs]⟩
      | cons q rest => exact ⟨h.1.unsigned, h.2.1.unsigned, ih h.2.2⟩
    simpa [Leaf.ofPairs] using hparts

theorem Parameters.Fits.unsigned {p : Parameters} (h : p.Fits) : ∀ l ∈ p.leaves, l.Unsigned := by
  cases p with
  | none opening closing => simpa [Parameters.leaves] using ⟨h.1.unsigned, h.2.unsigned⟩
  | some opening first more closing =>
    obtain ⟨hopening, -, hclosing, hnames⟩ := h
    have hparts : first.Unsigned ∧ ∀ l ∈ Leaf.ofPairs Leaf.alone more, l.Unsigned := by
      rcases hnames with ⟨hellipsis, rfl⟩ | ⟨hname, hmore⟩
      · exact ⟨Leaf.unsigned_of_ellipsis hellipsis, by simp [Leaf.ofPairs]⟩
      · exact ⟨hname.unsigned, hmore.unsigned⟩
    simp only [Parameters.leaves, List.cons_append, List.forall_mem_cons, List.forall_mem_append]
    exact ⟨hopening.unsigned, hparts.1, hparts.2, hclosing.unsigned, by simp⟩

theorem LocalName.Fits.unsigned {n : LocalName} (h : n.Fits next) :
    ∀ l ∈ n.leaves, l.Unsigned := by
  obtain ⟨name, mark⟩ := n
  obtain ⟨hname, hmark⟩ := h
  cases mark with
  | none => simpa [LocalName.leaves] using hname.unsigned
  | some m =>
    simpa [LocalName.leaves, Mark.leaves] using
      ⟨hname.unsigned, hmark.1.unsigned, hmark.2.1.unsigned, hmark.2.2.unsigned⟩

theorem LocalName.MoreFit.unsigned {more : List (Leaf × LocalName)} (h : MoreFit next more) :
    ∀ l ∈ Leaf.ofPairs LocalName.leaves more, l.Unsigned := by
  induction more with
  | nil => simp [Leaf.ofPairs]
  | cons p rest ih =>
    obtain ⟨comma, n⟩ := p
    obtain ⟨hcomma, hn, hrest⟩ := h
    simp only [Leaf.ofPairs, List.cons_append, List.forall_mem_cons, List.forall_mem_append]
    exact ⟨hcomma.unsigned, hn.unsigned, ih hrest⟩

/-- A name that begins a positional field stands before no equals sign, whether
or not signed numbers are taken apart. -/
theorem Expr.tail_spread {e e' : Expr} (hleaves : e'.leaves = e.leaves.flatMap (Leaf.spread place))
    (h : e.head.IsName → NoneOf ["="] (front e.leaves.tail next)) :
    e'.head.IsName → NoneOf ["="] (front e'.leaves.tail next) := by
  obtain ⟨rest, hrest⟩ := e.leaves_eq
  obtain ⟨rest', hrest'⟩ := e'.leaves_eq
  rw [hrest, hrest', List.flatMap_cons] at hleaves
  rw [hrest] at h
  rw [hrest']
  intro hname
  cases hsigned : e.head.signed? place with
  | none =>
    rw [Leaf.spread_of_plain hsigned] at hleaves
    obtain ⟨heq, rfl⟩ := List.cons.inj hleaves
    exact (h (heq ▸ hname)).spread (by decide)
  | some p =>
    -- A minus is no name.
    obtain ⟨minus, number⟩ := p
    obtain ⟨-, -, hkind, -, -⟩ := Leaf.of_signed? hsigned
    rw [Leaf.spread_of_signed hsigned] at hleaves
    obtain ⟨heq, -⟩ := List.cons.inj hleaves
    rw [heq] at hname
    exact absurd (hkind.symm.trans hname) (by decide)

/-! ## 4. Expressions and statements -/

mutual

/-- The expression with its signed numbers taken apart fits where the expression
does, and has the leaves taken apart. -/
theorem Expr.spread_fits {limit : Int} {next : Option Token} : ∀ e : Expr,
    e.Fits limit next → limit ≤ 13 →
      (e.spread place).Fits limit next ∧
        (e.spread place).leaves = e.leaves.flatMap (Leaf.spread place)
  | .mk operand operations, h, hlimit => by
    obtain ⟨hops, hopsLeaves⟩ := operationsSpread_fit operations h.2
    rw [Expr.spread, Expr.leaves, List.flatMap_append, ← hopsLeaves]
    cases hsigned : operand.signed? place with
    | none =>
      obtain ⟨hoperand, hleaves⟩ := Operand.spread_fits operand h.1 hsigned
      rw [← hleaves]
      refine ⟨⟨?_, hops⟩, rfl⟩
      rwa [front_operationsSpread]
    | some p => exact Expr.fits_ofSigned hsigned hops hlimit

theorem operationsSpread_fit {limit : Int} {next : Option Token} :
    ∀ operations : List (Leaf × Expr), OperationsFit limit next operations →
      OperationsFit limit next (operationsSpread place operations) ∧
        operationsLeaves (operationsSpread place operations) =
          (operationsLeaves operations).flatMap (Leaf.spread place)
  | [], h => ⟨h, rfl⟩
  | (operator, right) :: rest, h => by
    obtain ⟨⟨powers, hpowers, hright⟩, hrest⟩ := h
    obtain ⟨hkind, hbinary, -⟩ := binary_operator hpowers
    obtain ⟨hright', hrightLeaves⟩ :=
      Expr.spread_fits right hright (powers_of_operator hbinary).1
    obtain ⟨hrest', hrestLeaves⟩ := operationsSpread_fit rest hrest
    have hoperator : operator.Unsigned := Leaf.unsigned_of_kind (by rw [hkind]; decide)
    refine ⟨⟨⟨powers, hpowers, ?_⟩, hrest'⟩, ?_⟩
    · rwa [front_operationsSpread]
    · simp only [operationsSpread, operationsLeaves, List.flatMap_append, hoperator.flatMap_cons,
        hrightLeaves, hrestLeaves]

theorem Operand.spread_fits {next : Option Token} : ∀ o : Operand,
    o.Fits next → o.signed? place = none →
      (o.spread place).Fits next ∧ (o.spread place).leaves = o.leaves.flatMap (Leaf.spread place)
  | .unary operator argument, h, _ => by
    obtain ⟨hargument, hleaves⟩ := Expr.spread_fits argument h.2 (by decide)
    have hunary := h.1
    rw [Parser.isUnary, Bool.and_eq_true, beq_iff_eq] at hunary
    have hoperator : operator.Unsigned := Leaf.unsigned_of_kind (by rw [hunary.1]; decide)
    refine ⟨⟨h.1, hargument⟩, ?_⟩
    simp only [Operand.spread, Operand.leaves, hoperator.flatMap_cons, hleaves]
  | .literal value, h, hsigned => by
    have hvalue : value.spread place = [value] := Leaf.spread_of_plain hsigned
    exact ⟨h, by simp only [Operand.spread, Operand.leaves, List.flatMap_singleton, hvalue]⟩
  | .table fields, h, _ => by
    obtain ⟨hfields, hleaves⟩ := Table.spread_fits fields h.2
    exact ⟨⟨(Table.head_spread fields).symm ▸ h.1, hfields⟩, hleaves⟩
  | .function word body, h, _ => by
    obtain ⟨hbody, hleaves⟩ := Body.spread_fits body h.2
    have hword : word.Unsigned :=
      Leaf.unsigned_of_kind (by rw [(Token.isKeyword_iff.1 h.1).1]; decide)
    refine ⟨⟨h.1, hbody⟩, ?_⟩
    simp only [Operand.spread, Operand.leaves, hword.flatMap_cons, hleaves]
  | .access path, h, _ => Access.spread_fits path h

theorem Access.spread_fits {next : Option Token} : ∀ a : Access, a.Fits next →
    (a.spread place).Fits next ∧ (a.spread place).leaves = a.leaves.flatMap (Leaf.spread place)
  | .mk root suffixes, h => by
    obtain ⟨hroot, hrootLeaves⟩ := Root.spread_fits root h.1
    obtain ⟨hsuffixes, hleaves⟩ := suffixesSpread_fit suffixes h.2
    refine ⟨⟨hroot, hsuffixes⟩, ?_⟩
    simp only [Access.spread, Access.leaves, List.flatMap_append, hrootLeaves, hleaves]

theorem Root.spread_fits : ∀ r : Root, r.Fits →
    (r.spread place).Fits ∧ (r.spread place).leaves = r.leaves.flatMap (Leaf.spread place)
  | .name name, h => by
    have hname : name.IsName := h
    exact ⟨h, by simp only [Root.spread, Root.leaves, hname.unsigned.flatMap_cons,
      List.flatMap_nil]⟩
  | .group opening inner closing, h => by
    obtain ⟨hopening, hinner, hclosing⟩ := h
    obtain ⟨hinner', hleaves⟩ := Expr.spread_fits inner hinner (by decide)
    refine ⟨⟨hopening, hinner', hclosing⟩, ?_⟩
    simp only [Root.spread, Root.leaves, List.flatMap_append, hopening.unsigned.flatMap_cons,
      hclosing.unsigned.flatMap_cons, hleaves, List.flatMap_nil]

theorem suffixesSpread_fit {next : Option Token} : ∀ xs : List Suffix, SuffixesFit next xs →
    SuffixesFit next (suffixesSpread place xs) ∧
      suffixesLeaves (suffixesSpread place xs) =
        (suffixesLeaves xs).flatMap (Leaf.spread place)
  | [], h => ⟨h, rfl⟩
  | x :: rest, h => by
    obtain ⟨hx, hxLeaves⟩ := Suffix.spread_fits x h.1
    obtain ⟨hrest, hrestLeaves⟩ := suffixesSpread_fit rest h.2
    refine ⟨⟨hx, hrest⟩, ?_⟩
    simp only [suffixesSpread, suffixesLeaves, List.flatMap_append, hxLeaves, hrestLeaves]

theorem Suffix.spread_fits : ∀ x : Suffix, x.Fits →
    (x.spread place).Fits ∧ (x.spread place).leaves = x.leaves.flatMap (Leaf.spread place)
  | .text string, h => by
    have hkind : string.token.kind = .string := h
    have hstring : string.Unsigned := Leaf.unsigned_of_kind (by rw [hkind]; decide)
    exact ⟨h, by simp only [Suffix.spread, Suffix.leaves, hstring.flatMap_cons, List.flatMap_nil]⟩
  | .member separator name, h => by
    have hseparator : separator.Unsigned := h.1.elim Leaf.IsSymbol.unsigned Leaf.IsSymbol.unsigned
    refine ⟨h, ?_⟩
    simp only [Suffix.spread, Suffix.leaves, hseparator.flatMap_cons, h.2.unsigned.flatMap_cons,
      List.flatMap_nil]
  | .index opening key closing, h => by
    obtain ⟨hopening, hkey, hclosing⟩ := h
    obtain ⟨hkey', hleaves⟩ := Expr.spread_fits key hkey (by decide)
    refine ⟨⟨hopening, hkey', hclosing⟩, ?_⟩
    simp only [Suffix.spread, Suffix.leaves, List.flatMap_append, hopening.unsigned.flatMap_cons,
      hclosing.unsigned.flatMap_cons, hleaves, List.flatMap_nil]
  | .table fields, h => by
    obtain ⟨hfields, hleaves⟩ := Table.spread_fits fields h.2
    exact ⟨⟨(Table.head_spread fields).symm ▸ h.1, hfields⟩, hleaves⟩
  | .call opening none closing, h => by
    refine ⟨h, ?_⟩
    simp only [Suffix.spread, Suffix.leaves, h.1.unsigned.flatMap_cons, h.2.unsigned.flatMap_cons,
      List.flatMap_nil]
  | .call opening (some arguments) closing, h => by
    obtain ⟨hopening, hnone, harguments, hclosing⟩ := h
    obtain ⟨harguments', hleaves⟩ := Exprs.spread_fits arguments harguments
    refine ⟨⟨hopening, ?_, harguments', hclosing⟩, ?_⟩
    · rw [hleaves]
      exact hnone.spread (by decide)
    · simp only [Suffix.spread, Suffix.leaves, List.flatMap_append, hopening.unsigned.flatMap_cons,
        hclosing.unsigned.flatMap_cons, hleaves, List.flatMap_nil]

theorem Exprs.spread_fits {next : Option Token} : ∀ es : Exprs, es.Fits next →
    (es.spread place).Fits next ∧ (es.spread place).leaves = es.leaves.flatMap (Leaf.spread place)
  | .mk first more, h => by
    obtain ⟨hfirst, hfirstLeaves⟩ := Expr.spread_fits first h.1 (by decide)
    obtain ⟨hmore, hmoreLeaves⟩ := commaExprsSpread_fit more h.2
    refine ⟨⟨?_, hmore⟩, ?_⟩
    · rwa [front_commaExprsSpread]
    · simp only [Exprs.spread, Exprs.leaves, List.flatMap_append, hfirstLeaves, hmoreLeaves]

theorem commaExprsSpread_fit {next : Option Token} : ∀ more : List (Leaf × Expr),
    CommaExprsFit next more → CommaExprsFit next (commaExprsSpread place more) ∧
      commaExprsLeaves (commaExprsSpread place more) =
        (commaExprsLeaves more).flatMap (Leaf.spread place)
  | [], h => ⟨h, rfl⟩
  | (comma, e) :: rest, h => by
    obtain ⟨hcomma, he, hrest⟩ := h
    obtain ⟨he', heLeaves⟩ := Expr.spread_fits e he (by decide)
    obtain ⟨hrest', hrestLeaves⟩ := commaExprsSpread_fit rest hrest
    refine ⟨⟨hcomma, ?_, hrest'⟩, ?_⟩
    · rwa [front_commaExprsSpread]
    · simp only [commaExprsSpread, commaExprsLeaves, List.flatMap_append,
        hcomma.unsigned.flatMap_cons, heLeaves, hrestLeaves]

theorem Table.spread_fits : ∀ t : Table, t.Fits →
    (t.spread place).Fits ∧ (t.spread place).leaves = t.leaves.flatMap (Leaf.spread place)
  | .empty opening closing, h => by
    refine ⟨h, ?_⟩
    simp only [Table.spread, Table.leaves, h.1.unsigned.flatMap_cons, h.2.unsigned.flatMap_cons,
      List.flatMap_nil]
  | .fields opening first more trailing closing, h => by
    obtain ⟨hopening, hnone, hfirst, hmore, htrailing, hclosing⟩ := h
    obtain ⟨hfirst', hfirstLeaves⟩ := Field.spread_fits first hfirst
    obtain ⟨hmore', hmoreLeaves⟩ := fieldsSpread_fit more hmore
    have hlast : trailing.toList.flatMap (Leaf.spread place) = trailing.toList :=
      Leaf.flatMap_spread fun l hl =>
        (htrailing l (Option.mem_toList.1 hl)).elim Leaf.Says.unsigned Leaf.Says.unsigned
    refine ⟨⟨hopening, ?_, ?_, hmore', htrailing, hclosing⟩, ?_⟩
    · rw [hfirstLeaves]
      exact hnone.spread (by decide)
    · rwa [Leaf.front_append, front_fieldsSpread, ← Leaf.front_append]
    · simp only [Table.spread, Table.leaves, List.flatMap_append, hopening.unsigned.flatMap_cons,
        hclosing.unsigned.flatMap_cons, hfirstLeaves, hmoreLeaves, hlast, List.flatMap_nil]

theorem fieldsSpread_fit {next : Option Token} : ∀ more : List (Leaf × Field),
    FieldsFit next more → FieldsFit next (fieldsSpread place more) ∧
      fieldsLeaves (fieldsSpread place more) = (fieldsLeaves more).flatMap (Leaf.spread place)
  | [], h => ⟨h, rfl⟩
  | (separator, f) :: rest, h => by
    obtain ⟨hseparator, hnone, hf, hrest⟩ := h
    obtain ⟨hf', hfLeaves⟩ := Field.spread_fits f hf
    obtain ⟨hrest', hrestLeaves⟩ := fieldsSpread_fit rest hrest
    have hunsigned : separator.Unsigned := hseparator.elim Leaf.Says.unsigned Leaf.Says.unsigned
    refine ⟨⟨hseparator, ?_, ?_, hrest'⟩, ?_⟩
    · rw [hfLeaves]
      exact hnone.spread (by decide)
    · rwa [front_fieldsSpread]
    · simp only [fieldsSpread, fieldsLeaves, List.flatMap_append, hunsigned.flatMap_cons, hfLeaves,
        hrestLeaves]

theorem Field.spread_fits {next : Option Token} : ∀ f : Field, f.Fits next →
    (f.spread place).Fits next ∧ (f.spread place).leaves = f.leaves.flatMap (Leaf.spread place)
  | .keyed opening key closing equals value, h => by
    obtain ⟨hopening, hkey, hclosing, hequals, hvalue⟩ := h
    obtain ⟨hkey', hkeyLeaves⟩ := Expr.spread_fits key hkey (by decide)
    obtain ⟨hvalue', hvalueLeaves⟩ := Expr.spread_fits value hvalue (by decide)
    refine ⟨⟨hopening, hkey', hclosing, hequals, hvalue'⟩, ?_⟩
    simp only [Field.spread, Field.leaves, List.flatMap_append, hopening.unsigned.flatMap_cons,
      hclosing.unsigned.flatMap_cons, hequals.unsigned.flatMap_cons, hkeyLeaves, hvalueLeaves]
  | .named name equals value, h => by
    obtain ⟨hname, hequals, hvalue⟩ := h
    obtain ⟨hvalue', hleaves⟩ := Expr.spread_fits value hvalue (by decide)
    refine ⟨⟨hname, hequals, hvalue'⟩, ?_⟩
    simp only [Field.spread, Field.leaves, hname.unsigned.flatMap_cons,
      hequals.unsigned.flatMap_cons, hleaves]
  | .positional value, h => by
    obtain ⟨hvalue, hleaves⟩ := Expr.spread_fits value h.1 (by decide)
    exact ⟨⟨hvalue, Expr.tail_spread hleaves h.2⟩, hleaves⟩

theorem Body.spread_fits : ∀ b : Body, b.Fits →
    (b.spread place).Fits ∧ (b.spread place).leaves = b.leaves.flatMap (Leaf.spread place)
  | .mk parameters block closing, h => by
    obtain ⟨hparameters, hblock, hclosing⟩ := h
    obtain ⟨hblock', hleaves⟩ := Block.spread_fits block hblock
    refine ⟨⟨hparameters, hblock', hclosing⟩, ?_⟩
    simp only [Body.spread, Body.leaves, List.flatMap_append,
      Leaf.flatMap_spread hparameters.unsigned, hclosing.unsigned.flatMap_cons, hleaves,
      List.flatMap_nil]

/-- The block with its signed numbers taken apart fits where the block does, and
has the leaves taken apart. -/
theorem Block.spread_fits {next : Option Token} : ∀ b : Block, b.Fits next →
    (b.spread place).Fits next ∧ (b.spread place).leaves = b.leaves.flatMap (Leaf.spread place)
  | .mk statements, h => statementsSpread_fit statements h

theorem statementsSpread_fit {next : Option Token} : ∀ xs : List Stat, StatementsFit next xs →
    StatementsFit next (statementsSpread place xs) ∧
      statementsLeaves (statementsSpread place xs) =
        (statementsLeaves xs).flatMap (Leaf.spread place)
  | [], h => ⟨h, rfl⟩
  | x :: rest, h => by
    obtain ⟨hends, hx, hrest⟩ := h
    obtain ⟨hx', hxLeaves⟩ := Stat.spread_fits x hx
    obtain ⟨hrest', hrestLeaves⟩ := statementsSpread_fit rest hrest
    refine ⟨⟨?_, ?_, hrest'⟩, ?_⟩
    · rwa [Stat.front_spread]
    · rwa [front_statementsSpread]
    · simp only [statementsSpread, statementsLeaves, List.flatMap_append, hxLeaves, hrestLeaves]

theorem Stat.spread_fits {next : Option Token} : ∀ x : Stat, x.Fits next →
    (x.spread place).Fits next ∧ (x.spread place).leaves = x.leaves.flatMap (Leaf.spread place)
  | .breakLoop word, h => by
    have hword : word.Opens .breakLoop := h
    exact ⟨h, by simp only [Stat.spread, Stat.leaves, hword.unsigned.flatMap_cons,
      List.flatMap_nil]⟩
  | .goto word target, h => by
    refine ⟨h, ?_⟩
    simp only [Stat.spread, Stat.leaves, h.1.unsigned.flatMap_cons, h.2.unsigned.flatMap_cons,
      List.flatMap_nil]
  | .label opening name closing, h => by
    refine ⟨h, ?_⟩
    simp only [Stat.spread, Stat.leaves, h.1.unsigned.flatMap_cons, h.2.1.unsigned.flatMap_cons,
      h.2.2.unsigned.flatMap_cons, List.flatMap_nil]
  | .empty semicolon, h => by
    have hsemicolon : semicolon.Opens .empty := h
    exact ⟨h, by simp only [Stat.spread, Stat.leaves, hsemicolon.unsigned.flatMap_cons,
      List.flatMap_nil]⟩
  | .doBlock word block closing, h => by
    obtain ⟨hword, hblock, hclosing⟩ := h
    obtain ⟨hblock', hleaves⟩ := Block.spread_fits block hblock
    refine ⟨⟨hword, hblock', hclosing⟩, ?_⟩
    simp only [Stat.spread, Stat.leaves, List.flatMap_append, hword.unsigned.flatMap_cons,
      hclosing.unsigned.flatMap_cons, hleaves, List.flatMap_nil]
  | .whileLoop word condition opening block closing, h => by
    obtain ⟨hword, hcondition, hopening, hblock, hclosing⟩ := h
    obtain ⟨hcondition', hconditionLeaves⟩ := Expr.spread_fits condition hcondition (by decide)
    obtain ⟨hblock', hblockLeaves⟩ := Block.spread_fits block hblock
    refine ⟨⟨hword, hcondition', hopening, hblock', hclosing⟩, ?_⟩
    simp only [Stat.spread, Stat.leaves, List.flatMap_append, hword.unsigned.flatMap_cons,
      hopening.unsigned.flatMap_cons, hclosing.unsigned.flatMap_cons, hconditionLeaves,
      hblockLeaves, List.flatMap_nil]
  | .repeatLoop word block closing condition, h => by
    obtain ⟨hword, hblock, hclosing, hcondition⟩ := h
    obtain ⟨hcondition', hconditionLeaves⟩ := Expr.spread_fits condition hcondition (by decide)
    obtain ⟨hblock', hblockLeaves⟩ := Block.spread_fits block hblock
    refine ⟨⟨hword, hblock', hclosing, hcondition'⟩, ?_⟩
    simp only [Stat.spread, Stat.leaves, List.flatMap_append, hword.unsigned.flatMap_cons,
      hclosing.unsigned.flatMap_cons, hconditionLeaves, hblockLeaves]
  | .conditional first more otherwise closing, h => by
    obtain ⟨hword, hfirst, hmore, hotherwise, hclosing⟩ := h
    have hopens : ∀ l ∈ first.leaves.head?, l.Unsigned := fun l hl => (hword l hl).unsigned
    obtain ⟨hfirst', hfirstLeaves⟩ := Branch.spread_fits first hfirst hopens
    obtain ⟨hmore', hmoreLeaves⟩ := branchesSpread_fit more hmore
    obtain ⟨hotherwise', hotherwiseLeaves⟩ := otherwiseSpread_fits otherwise hotherwise
    refine ⟨⟨?_, ?_, ?_, hotherwise', hclosing⟩, ?_⟩
    · rwa [Branch.head?_spread]
    · rwa [Leaf.front_append, front_branchesSpread, front_otherwiseSpread, ← Leaf.front_append]
    · rwa [front_otherwiseSpread]
    · simp only [Stat.spread, Stat.leaves, List.flatMap_append, hclosing.unsigned.flatMap_cons,
        hfirstLeaves, hmoreLeaves, hotherwiseLeaves, List.flatMap_nil]
  | .countingLoop word name equals start comma stop step opening block closing, h => by
    obtain ⟨hword, hname, hequals, hstart, hcomma, hstop, hstep, hopening, hblock, hclosing⟩ := h
    obtain ⟨hstart', hstartLeaves⟩ := Expr.spread_fits start hstart (by decide)
    obtain ⟨hstop', hstopLeaves⟩ := Expr.spread_fits stop hstop (by decide)
    obtain ⟨hstep', hstepLeaves⟩ := stepSpread_fits step hstep
    obtain ⟨hblock', hblockLeaves⟩ := Block.spread_fits block hblock
    refine ⟨⟨hword, hname, hequals, hstart', hcomma, ?_, hstep', hopening, hblock', hclosing⟩, ?_⟩
    · rwa [front_stepSpread]
    · simp only [Stat.spread, Stat.leaves, List.flatMap_append, hword.unsigned.flatMap_cons,
        hname.unsigned.flatMap_cons, hequals.unsigned.flatMap_cons, hcomma.unsigned.flatMap_cons,
        hopening.unsigned.flatMap_cons, hclosing.unsigned.flatMap_cons, hstartLeaves, hstopLeaves,
        hstepLeaves, hblockLeaves, List.flatMap_nil]
  | .iteration word name more between values opening block closing, h => by
    obtain ⟨hword, hname, hmore, hbetween, hvalues, hopening, hblock, hclosing⟩ := h
    obtain ⟨hvalues', hvaluesLeaves⟩ := Exprs.spread_fits values hvalues
    obtain ⟨hblock', hblockLeaves⟩ := Block.spread_fits block hblock
    refine ⟨⟨hword, hname, hmore, hbetween, hvalues', hopening, hblock', hclosing⟩, ?_⟩
    simp only [Stat.spread, Stat.leaves, List.flatMap_append, hword.unsigned.flatMap_cons,
      hname.unsigned.flatMap_cons, Leaf.flatMap_spread hmore.unsigned,
      hbetween.unsigned.flatMap_cons, hopening.unsigned.flatMap_cons,
      hclosing.unsigned.flatMap_cons, hvaluesLeaves, hblockLeaves, List.flatMap_nil]
  | .function word name path method body, h => by
    obtain ⟨hword, hname, hpath, hmethod, hbody⟩ := h
    obtain ⟨hbody', hleaves⟩ := Body.spread_fits body hbody
    refine ⟨⟨hword, hname, hpath, hmethod, hbody'⟩, ?_⟩
    simp only [Stat.spread, Stat.leaves, ← Leaf.ofPairs_toList, List.flatMap_append,
      hword.unsigned.flatMap_cons, hname.unsigned.flatMap_cons, Leaf.flatMap_spread hpath.unsigned,
      Leaf.flatMap_spread hmethod.unsigned, hleaves]
  | .localFunction word function name body, h => by
    obtain ⟨hword, hfunction, hname, hbody⟩ := h
    obtain ⟨hbody', hleaves⟩ := Body.spread_fits body hbody
    refine ⟨⟨hword, hfunction, hname, hbody'⟩, ?_⟩
    simp only [Stat.spread, Stat.leaves, hword.unsigned.flatMap_cons,
      hfunction.unsigned.flatMap_cons, hname.unsigned.flatMap_cons, hleaves]
  | .localNames word first more none, h => by
    obtain ⟨hword, -, hfirst, hmore, -⟩ := id h
    refine ⟨h, ?_⟩
    simp only [Stat.spread, Stat.leaves, List.flatMap_append, hword.unsigned.flatMap_cons,
      Leaf.flatMap_spread hfirst.unsigned, Leaf.flatMap_spread hmore.unsigned]
  | .localNames word first more (some (equals, values)), h => by
    obtain ⟨hword, hfunction, hfirst, hmore, hequals, hvalues⟩ := h
    obtain ⟨hvalues', hleaves⟩ := Exprs.spread_fits values hvalues
    refine ⟨⟨hword, hfunction, hfirst, hmore, hequals, hvalues'⟩, ?_⟩
    simp only [Stat.spread, Stat.leaves, List.flatMap_append, hword.unsigned.flatMap_cons,
      Leaf.flatMap_spread hfirst.unsigned, Leaf.flatMap_spread hmore.unsigned,
      hequals.unsigned.flatMap_cons, hleaves]
  | .result word none, h => by
    refine ⟨h, ?_⟩
    simp only [Stat.spread, Stat.leaves, h.1.unsigned.flatMap_cons, List.flatMap_nil]
  | .result word (some values), h => by
    obtain ⟨hword, -, hvalues⟩ := h
    obtain ⟨hvalues', hleaves⟩ := Exprs.spread_fits values hvalues
    refine ⟨⟨hword, Exprs.front_endsResult hvalues', hvalues'⟩, ?_⟩
    simp only [Stat.spread, Stat.leaves, hword.unsigned.flatMap_cons, hleaves]
  | .assignment first more equals values, h => by
    obtain ⟨hopens, hfirst, hkind, hmore, hequals, hvalues⟩ := h
    obtain ⟨hfirst', hfirstLeaves⟩ := Access.spread_fits first hfirst
    obtain ⟨hmore', hmoreLeaves⟩ := commaAccessesSpread_fit more hmore
    obtain ⟨hvalues', hvaluesLeaves⟩ := Exprs.spread_fits values hvalues
    refine ⟨⟨?_, ?_, ?_, hmore', hequals, hvalues'⟩, ?_⟩
    · rwa [Access.head_spread]
    · rwa [front_commaAccessesSpread]
    · rwa [Access.kind_spread]
    · simp only [Stat.spread, Stat.leaves, List.flatMap_append, hequals.unsigned.flatMap_cons,
        hfirstLeaves, hmoreLeaves, hvaluesLeaves]
  | .call callee, h => by
    obtain ⟨hopens, hcallee, hkind, hnone⟩ := h
    obtain ⟨hcallee', hleaves⟩ := Access.spread_fits callee hcallee
    refine ⟨⟨?_, hcallee', ?_, hnone⟩, hleaves⟩
    · rwa [Access.head_spread]
    · rwa [Access.kind_spread]

theorem commaAccessesSpread_fit {next : Option Token} : ∀ more : List (Leaf × Access),
    CommaAccessesFit next more → CommaAccessesFit next (commaAccessesSpread place more) ∧
      commaAccessesLeaves (commaAccessesSpread place more) =
        (commaAccessesLeaves more).flatMap (Leaf.spread place)
  | [], h => ⟨h, rfl⟩
  | (comma, a) :: rest, h => by
    obtain ⟨hcomma, ha, hkind, hrest⟩ := h
    obtain ⟨ha', haLeaves⟩ := Access.spread_fits a ha
    obtain ⟨hrest', hrestLeaves⟩ := commaAccessesSpread_fit rest hrest
    refine ⟨⟨hcomma, ?_, ?_, hrest'⟩, ?_⟩
    · rwa [front_commaAccessesSpread]
    · rwa [Access.kind_spread]
    · simp only [commaAccessesSpread, commaAccessesLeaves, List.flatMap_append,
        hcomma.unsigned.flatMap_cons, haLeaves, hrestLeaves]

/-- What a branch begins with is told by the statement that it stands in. -/
theorem Branch.spread_fits {next : Option Token} : ∀ b : Branch, b.Fits next →
    (∀ l ∈ b.leaves.head?, l.Unsigned) →
    (b.spread place).Fits next ∧ (b.spread place).leaves = b.leaves.flatMap (Leaf.spread place)
  | .mk word condition opening block, h, hword => by
    obtain ⟨hcondition, hopening, hblock⟩ := h
    obtain ⟨hcondition', hconditionLeaves⟩ := Expr.spread_fits condition hcondition (by decide)
    obtain ⟨hblock', hblockLeaves⟩ := Block.spread_fits block hblock
    refine ⟨⟨hcondition', hopening, hblock'⟩, ?_⟩
    simp only [Branch.spread, Branch.leaves, List.flatMap_append, (hword word rfl).flatMap_cons,
      hopening.unsigned.flatMap_cons, hconditionLeaves, hblockLeaves]

theorem branchesSpread_fit {next : Option Token} : ∀ bs : List Branch, BranchesFit next bs →
    BranchesFit next (branchesSpread place bs) ∧
      branchesLeaves (branchesSpread place bs) = (branchesLeaves bs).flatMap (Leaf.spread place)
  | [], h => ⟨h, rfl⟩
  | b :: rest, h => by
    obtain ⟨hword, hb, hrest⟩ := h
    obtain ⟨hb', hbLeaves⟩ := Branch.spread_fits b hb fun l hl => (hword l hl).unsigned
    obtain ⟨hrest', hrestLeaves⟩ := branchesSpread_fit rest hrest
    refine ⟨⟨?_, ?_, hrest'⟩, ?_⟩
    · rwa [Branch.head?_spread]
    · rwa [front_branchesSpread]
    · simp only [branchesSpread, branchesLeaves, List.flatMap_append, hbLeaves, hrestLeaves]

theorem otherwiseSpread_fits {next : Option Token} : ∀ otherwise : Option (Leaf × Block),
    OtherwiseFits next otherwise → OtherwiseFits next (otherwiseSpread place otherwise) ∧
      otherwiseLeaves (otherwiseSpread place otherwise) =
        (otherwiseLeaves otherwise).flatMap (Leaf.spread place)
  | none, h => ⟨h, rfl⟩
  | some (word, block), h => by
    obtain ⟨hblock, hleaves⟩ := Block.spread_fits block h.2
    refine ⟨⟨h.1, hblock⟩, ?_⟩
    simp only [otherwiseSpread, otherwiseLeaves, h.1.unsigned.flatMap_cons, hleaves]

theorem stepSpread_fits {next : Option Token} : ∀ step : Option (Leaf × Expr),
    StepFits next step → StepFits next (stepSpread place step) ∧
      stepLeaves (stepSpread place step) = (stepLeaves step).flatMap (Leaf.spread place)
  | none, h => ⟨h, rfl⟩
  | some (comma, step), h => by
    obtain ⟨hstep, hleaves⟩ := Expr.spread_fits step h.2 (by decide)
    refine ⟨⟨h.1, hstep⟩, ?_⟩
    simp only [stepSpread, stepLeaves, h.1.unsigned.flatMap_cons, hleaves]

end

end

end LuaLayout
