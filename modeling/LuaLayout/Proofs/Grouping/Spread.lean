/-
LuaLayout.Proofs.Grouping.Spread — trees with their signed numbers taken apart.

A number that carries its minus is one leaf. `spread` makes two leaves of it, a
minus and a number, wherever it is an operand; as the minus is then a unary
operator, it takes a power of which the number was the base with it. Nothing
else in a tree changes. So the groupings change as `unjoin` tells for powers
that bind tighter than a minus.
-/
import LuaLayout.Proofs.Grouping.Groupings
import LuaLayout.Proofs.Layout.Spelled

namespace LuaLayout

open Leaf (front)

/-! ## 1. Leaves -/

namespace Leaf

/-- The minus and the number that a signed number is made of. It cannot be seen
any more where the number stood, so this is told by the place of the minus. -/
def signed? (place : Position → Position) (l : Leaf) : Option (Leaf × Leaf) :=
  if l.token.kind = .number then
    (unsigned? l.token.text).map fun number =>
      (⟨⟨.operator, "-", l.token.pos⟩, []⟩, ⟨⟨.number, number, place l.token.pos⟩, l.comments⟩)
  else none

/-- The leaf, or the two leaves of a signed number. -/
def spread (place : Position → Position) (l : Leaf) : List Leaf :=
  match l.signed? place with
  | some (minus, number) => [minus, number]
  | none => [l]

/-- The leaf is no signed number. -/
def Unsigned (l : Leaf) : Prop := l.token.kind = .number → unsigned? l.token.text = none

section

variable {place : Position → Position} {l minus number : Leaf} {text : String}

theorem Unsigned.signed?_eq (h : l.Unsigned) : l.signed? place = none := by
  unfold signed?
  split
  · next hkind => rw [h hkind]; rfl
  · rfl

theorem spread_of_plain (h : l.signed? place = none) : l.spread place = [l] := by
  rw [spread, h]

theorem spread_of_signed (h : l.signed? place = some (minus, number)) :
    l.spread place = [minus, number] := by
  rw [spread, h]

theorem Unsigned.spread_eq (h : l.Unsigned) : l.spread place = [l] :=
  spread_of_plain h.signed?_eq

/-- A leaf that is no signed number stays where it is. -/
theorem Unsigned.flatMap_cons (h : l.Unsigned) (rest : List Leaf) :
    (l :: rest).flatMap (spread place) = l :: rest.flatMap (spread place) := by
  rw [List.flatMap_cons, h.spread_eq]
  rfl

theorem flatMap_spread {leaves : List Leaf} (h : ∀ l ∈ leaves, l.Unsigned) :
    leaves.flatMap (spread place) = leaves := by
  induction leaves with
  | nil => rfl
  | cons l rest ih =>
    obtain ⟨hl, hrest⟩ := List.forall_mem_cons.1 h
    rw [hl.flatMap_cons, ih hrest]

/-- A signed number is a minus and a number. -/
theorem of_signed? (h : l.signed? place = some (minus, number)) :
    l.token.kind = .number ∧ unsigned? l.token.text = some number.token.text ∧
      minus.token.kind = .operator ∧ minus.token.text = "-" ∧ number.token.kind = .number := by
  unfold signed? at h
  split at h
  · next hkind =>
    obtain ⟨text, htext, heq⟩ := Option.map_eq_some_iff.1 h
    cases heq
    exact ⟨hkind, htext, rfl, rfl, rfl⟩
  · cases h

theorem unsigned_of_kind (h : l.token.kind ≠ .number) : l.Unsigned := fun hkind => absurd hkind h

theorem IsName.unsigned (h : l.IsName) : l.Unsigned :=
  unsigned_of_kind (by rw [show l.token.kind = .name from h]; decide)

/-- Only numbers are signed. -/
theorem IsSymbol.unsigned (h : l.IsSymbol text) : l.Unsigned :=
  unsigned_of_kind (by rw [(Token.isOperator_iff.1 h).1]; decide)

/-- A fixed text is no signed number, whatever the kind of its token. -/
theorem Says.unsigned (h : l.Says text) (hfixed : text ∈ fixedTexts := by decide) : l.Unsigned := by
  intro _
  rw [show l.token.text = text from h]
  exact unsigned?_eq_none_iff.2 (unsign_fixed hfixed).1

theorem Opens.unsigned {form : StatementForm} (h : l.Opens form) : l.Unsigned := by
  refine h.saying.unsigned ?_
  cases form <;> decide

end

end Leaf

/-! ## 2. Trees -/

/-- How many operators a minus in front of their first operand takes with it: a
power. -/
def powerCount : List (Leaf × Expr) → Nat
  | (operator, _) :: _ => if Grouping.isPower operator.token.text then 1 else 0
  | [] => 0

theorem powerCount_power {operator : Leaf} {right : Expr} {rest : List (Leaf × Expr)}
    (h : Grouping.isPower operator.token.text = true) :
    powerCount ((operator, right) :: rest) = 1 := if_pos h

theorem powerCount_other {operator : Leaf} {right : Expr} {rest : List (Leaf × Expr)}
    (h : Grouping.isPower operator.token.text = false) :
    powerCount ((operator, right) :: rest) = 0 := if_neg (by rw [h]; decide)

/-- An expression of an operand and operators, where the operand is made of a
minus and a number, if they are given. -/
def Expr.ofSigned : Option (Leaf × Leaf) → Operand → List (Leaf × Expr) → Expr
  | none, operand, operations => .mk operand operations
  | some (minus, number), _, operations =>
    .mk (.unary minus (.mk (.literal number) (operations.take (powerCount operations))))
      (operations.drop (powerCount operations))

/-- The minus and the number of an operand that is a signed number. -/
def Operand.signed? (place : Position → Position) : Operand → Option (Leaf × Leaf)
  | .literal value => value.signed? place
  | _ => none

section

variable (place : Position → Position)

mutual

/-- The expression with its signed numbers taken apart. -/
def Expr.spread : Expr → Expr
  | .mk operand operations =>
    .ofSigned (operand.signed? place) operand.spread (operationsSpread operations)

/-- The operators with their right operands, each with its signed numbers taken apart. -/
def operationsSpread : List (Leaf × Expr) → List (Leaf × Expr)
  | [] => []
  | (operator, right) :: rest => (operator, right.spread) :: operationsSpread rest

/-- The operand with the signed numbers in it taken apart. -/
def Operand.spread : Operand → Operand
  | .unary operator argument => .unary operator argument.spread
  | .literal value => .literal value
  | .table fields => .table fields.spread
  | .function word body => .function word body.spread
  | .access path => .access path.spread

/-- The access with its signed numbers taken apart. -/
def Access.spread : Access → Access
  | .mk root suffixes => .mk root.spread (suffixesSpread suffixes)

/-- The start of an access with its signed numbers taken apart. -/
def Root.spread : Root → Root
  | .name name => .name name
  | .group opening inner closing => .group opening inner.spread closing

/-- The suffixes with their signed numbers taken apart. -/
def suffixesSpread : List Suffix → List Suffix
  | [] => []
  | s :: rest => s.spread :: suffixesSpread rest

/-- The step of an access with its signed numbers taken apart. -/
def Suffix.spread : Suffix → Suffix
  | .text string => .text string
  | .member separator name => .member separator name
  | .index opening key closing => .index opening key.spread closing
  | .table fields => .table fields.spread
  | .call opening none closing => .call opening none closing
  | .call opening (some arguments) closing => .call opening (some arguments.spread) closing

/-- The expressions with their signed numbers taken apart. -/
def Exprs.spread : Exprs → Exprs
  | .mk first more => .mk first.spread (commaExprsSpread more)

/-- The expressions after commas with their signed numbers taken apart. -/
def commaExprsSpread : List (Leaf × Expr) → List (Leaf × Expr)
  | [] => []
  | (comma, e) :: rest => (comma, e.spread) :: commaExprsSpread rest

/-- The table with its signed numbers taken apart. -/
def Table.spread : Table → Table
  | .empty opening closing => .empty opening closing
  | .fields opening first more trailing closing =>
    .fields opening first.spread (fieldsSpread more) trailing closing

/-- The further fields with their signed numbers taken apart. -/
def fieldsSpread : List (Leaf × Field) → List (Leaf × Field)
  | [] => []
  | (separator, f) :: rest => (separator, f.spread) :: fieldsSpread rest

/-- The field with its signed numbers taken apart. -/
def Field.spread : Field → Field
  | .keyed opening key closing equals value =>
    .keyed opening key.spread closing equals value.spread
  | .named name equals value => .named name equals value.spread
  | .positional value => .positional value.spread

/-- The function with its signed numbers taken apart. -/
def Body.spread : Body → Body
  | .mk parameters block closing => .mk parameters block.spread closing

/-- The block with its signed numbers taken apart. -/
def Block.spread : Block → Block
  | .mk statements => .mk (statementsSpread statements)

/-- The statements with their signed numbers taken apart. -/
def statementsSpread : List Stat → List Stat
  | [] => []
  | s :: rest => s.spread :: statementsSpread rest

/-- The statement with its signed numbers taken apart. -/
def Stat.spread : Stat → Stat
  | .breakLoop word => .breakLoop word
  | .goto word target => .goto word target
  | .label opening name closing => .label opening name closing
  | .empty semicolon => .empty semicolon
  | .doBlock word block closing => .doBlock word block.spread closing
  | .whileLoop word condition opening block closing =>
    .whileLoop word condition.spread opening block.spread closing
  | .repeatLoop word block closing condition =>
    .repeatLoop word block.spread closing condition.spread
  | .conditional first more otherwise closing =>
    .conditional first.spread (branchesSpread more) (otherwiseSpread otherwise) closing
  | .countingLoop word name equals start comma stop step opening block closing =>
    .countingLoop word name equals start.spread comma stop.spread (stepSpread step) opening
      block.spread closing
  | .iteration word name more between values opening block closing =>
    .iteration word name more between values.spread opening block.spread closing
  | .function word name path method body => .function word name path method body.spread
  | .localFunction word function name body => .localFunction word function name body.spread
  | .localNames word first more none => .localNames word first more none
  | .localNames word first more (some (equals, values)) =>
    .localNames word first more (some (equals, values.spread))
  | .result word none => .result word none
  | .result word (some values) => .result word (some values.spread)
  | .assignment first more equals values =>
    .assignment first.spread (commaAccessesSpread more) equals values.spread
  | .call callee => .call callee.spread

/-- The further targets with their signed numbers taken apart. -/
def commaAccessesSpread : List (Leaf × Access) → List (Leaf × Access)
  | [] => []
  | (comma, a) :: rest => (comma, a.spread) :: commaAccessesSpread rest

/-- The condition and its block with their signed numbers taken apart. -/
def Branch.spread : Branch → Branch
  | .mk word condition opening block => .mk word condition.spread opening block.spread

/-- The further conditions with their signed numbers taken apart. -/
def branchesSpread : List Branch → List Branch
  | [] => []
  | b :: rest => b.spread :: branchesSpread rest

/-- What is done if no condition holds, with its signed numbers taken apart. -/
def otherwiseSpread : Option (Leaf × Block) → Option (Leaf × Block)
  | none => none
  | some (word, block) => some (word, block.spread)

/-- The step of a counting loop with its signed numbers taken apart. -/
def stepSpread : Option (Leaf × Expr) → Option (Leaf × Expr)
  | none => none
  | some (comma, step) => some (comma, step.spread)

end

end

/-! ## 3. Groupings -/

section

variable {place : Position → Position}

/-- A leaf that is no signed number groups as none, and there is nothing to take apart. -/
theorem Leaf.unjoin_grouping {l : Leaf} (h : l.signed? place = none) :
    l.grouping.signed? = none ∧ l.grouping.unjoin true = l.grouping := by
  unfold Leaf.signed? at h
  unfold Leaf.grouping
  split at h
  · next hkind =>
    have hnone : unsigned? l.token.text = none := Option.map_eq_none_iff.1 h
    rw [if_pos hkind]
    exact ⟨hnone, by rw [Grouping.unjoin, hnone]⟩
  · next hkind =>
    rw [if_neg hkind]
    exact ⟨rfl, rfl⟩

/-- No operand but a signed number groups as one. -/
theorem Operand.signed?_grouping {o : Operand} (h : o.signed? place = none) :
    o.grouping.signed? = none := by
  cases o with
  | literal value => exact (Leaf.unjoin_grouping h).1
  | _ => rfl

mutual

/-- With its signed numbers taken apart an expression groups as its grouping taken apart. -/
theorem Expr.grouping_spread : ∀ e : Expr,
    (e.spread place).grouping = e.grouping.unjoin true
  | .mk operand operations => by
    obtain ⟨hunsigned, hsigned⟩ := operationsGrouping_spread operations
    rw [Expr.spread, Expr.grouping]
    cases h : operand.signed? place with
    | none =>
      rw [← hunsigned _ (Operand.signed?_grouping h), ← Operand.grouping_spread operand h]
      rfl
    | some p =>
      obtain ⟨minus, number⟩ := p
      cases operand with
      | literal value =>
        obtain ⟨hkind, htext, -, hminus, hnumber⟩ := Leaf.of_signed? h
        have hvalue : value.grouping = .number value.token.text := if_pos hkind
        rw [Operand.grouping, hvalue]
        exact hsigned _ _ _ _ htext hminus (if_pos hnumber)
      | _ => cases h

/-- Operators applied to what is no signed number, and to a signed number. -/
theorem operationsGrouping_spread : ∀ operations : List (Leaf × Expr),
    (∀ left : Grouping, left.signed? = none →
      operationsGrouping (left.unjoin true) (operationsSpread place operations) =
        (operationsGrouping left operations).unjoin true) ∧
    (∀ text minus number operand, unsigned? text = some number.token.text →
      minus.token.text = "-" → number.grouping = .number number.token.text →
      (Expr.ofSigned (some (minus, number)) operand (operationsSpread place operations)).grouping =
        (operationsGrouping (.number text) operations).unjoin true)
  | [] => by
    refine ⟨fun left _ => rfl, fun text minus number operand htext hminus hnumber => ?_⟩
    rw [operationsGrouping, Grouping.unjoin_number htext, ← hminus, ← hnumber]
    rfl
  | (operator, right) :: rest => by
    have hright := Expr.grouping_spread right
    have hrest : ∀ left : Grouping, left.signed? = none → _ :=
      (operationsGrouping_spread rest).1
    refine ⟨fun left hleft => ?_, fun text minus number operand htext hminus hnumber => ?_⟩
    · rw [operationsSpread, operationsGrouping, operationsGrouping, ← hrest _ rfl,
        Grouping.unjoin_binary (.inl hleft), hright]
    · rw [operationsGrouping, ← hrest _ rfl, operationsSpread]
      have hleft : (Grouping.number text).signed? = some number.token.text := htext
      cases hpower : Grouping.isPower operator.token.text with
      | true =>
        rw [Grouping.unjoin_power hleft hpower, Expr.ofSigned, powerCount_power hpower, ← hminus,
          ← hnumber, ← hright]
        rfl
      | false =>
        rw [Grouping.unjoin_binary (.inr hpower), Grouping.unjoin_number htext, Expr.ofSigned,
          powerCount_other hpower, ← hminus, ← hnumber, ← hright]
        rfl

/-- An operand that is no signed number is taken apart within itself. -/
theorem Operand.grouping_spread : ∀ o : Operand, o.signed? place = none →
    (o.spread place).grouping = o.grouping.unjoin true
  | .unary operator argument, _ => by
    rw [Operand.spread, Operand.grouping, Operand.grouping, Grouping.unjoin,
      Expr.grouping_spread argument]
  | .literal value, h => (Leaf.unjoin_grouping h).2.symm
  | .table fields, _ => by
    rw [Operand.spread, Operand.grouping, Operand.grouping, Grouping.unjoin,
      Table.groupings_spread fields]
  | .function word body, _ => by
    rw [Operand.spread, Operand.grouping, Operand.grouping, Grouping.unjoin, unjoinAll_append,
      unjoinAll_words, Body.groupings_spread body]
  | .access path, _ => by
    rw [Operand.spread, Operand.grouping, Operand.grouping, Grouping.unjoin,
      Access.groupings_spread path]

/-- The groupings within an access are taken apart one by one. -/
theorem Access.groupings_spread : ∀ a : Access,
    (a.spread place).groupings = unjoinAll true a.groupings
  | .mk root suffixes => by
    simp only [Access.spread, Access.groupings, unjoinAll_append, Root.groupings_spread root,
      suffixesGroupings_spread suffixes]

theorem Root.groupings_spread : ∀ r : Root,
    (r.spread place).groupings = unjoinAll true r.groupings
  | .name name => (unjoinAll_words [name]).symm
  | .group opening inner closing => by
    simp only [Root.spread, Root.groupings, unjoinAll_append, unjoinAll_cons, unjoinAll_words,
      Expr.grouping_spread inner]

theorem suffixesGroupings_spread : ∀ xs : List Suffix,
    suffixesGroupings (suffixesSpread place xs) = unjoinAll true (suffixesGroupings xs)
  | [] => rfl
  | x :: rest => by
    simp only [suffixesSpread, suffixesGroupings, unjoinAll_append, Suffix.groupings_spread x,
      suffixesGroupings_spread rest]

theorem Suffix.groupings_spread : ∀ x : Suffix,
    (x.spread place).groupings = unjoinAll true x.groupings
  | .text string => (unjoinAll_words [string]).symm
  | .member separator name => (unjoinAll_words [separator, name]).symm
  | .index opening key closing => by
    simp only [Suffix.spread, Suffix.groupings, unjoinAll_append, unjoinAll_cons, unjoinAll_words,
      Expr.grouping_spread key]
  | .table fields => Table.groupings_spread fields
  | .call opening none closing => (unjoinAll_words [opening, closing]).symm
  | .call opening (some arguments) closing => by
    simp only [Suffix.spread, Suffix.groupings, unjoinAll_append, unjoinAll_words,
      Exprs.groupings_spread arguments]

theorem Exprs.groupings_spread : ∀ es : Exprs,
    (es.spread place).groupings = unjoinAll true es.groupings
  | .mk first more => by
    simp only [Exprs.spread, Exprs.groupings, unjoinAll_cons, Expr.grouping_spread first,
      commaExprsGroupings_spread more]

theorem commaExprsGroupings_spread : ∀ more : List (Leaf × Expr),
    commaExprsGroupings (commaExprsSpread place more) = unjoinAll true (commaExprsGroupings more)
  | [] => rfl
  | (comma, e) :: rest => by
    simp only [commaExprsSpread, commaExprsGroupings, unjoinAll_append, unjoinAll_cons,
      unjoinAll_words, Expr.grouping_spread e, commaExprsGroupings_spread rest]

theorem Table.groupings_spread : ∀ t : Table,
    (t.spread place).groupings = unjoinAll true t.groupings
  | .empty opening closing => (unjoinAll_words [opening, closing]).symm
  | .fields opening first more trailing closing => by
    simp only [Table.spread, Table.groupings, unjoinAll_append, unjoinAll_words,
      Field.groupings_spread first, fieldsGroupings_spread more]

theorem fieldsGroupings_spread : ∀ more : List (Leaf × Field),
    fieldsGroupings (fieldsSpread place more) = unjoinAll true (fieldsGroupings more)
  | [] => rfl
  | (separator, f) :: rest => by
    simp only [fieldsSpread, fieldsGroupings, unjoinAll_append, unjoinAll_words,
      Field.groupings_spread f, fieldsGroupings_spread rest]

theorem Field.groupings_spread : ∀ f : Field,
    (f.spread place).groupings = unjoinAll true f.groupings
  | .keyed opening key closing equals value => by
    simp only [Field.spread, Field.groupings, unjoinAll_append, unjoinAll_cons, unjoinAll_nil,
      unjoinAll_words, Expr.grouping_spread key, Expr.grouping_spread value]
  | .named name equals value => by
    simp only [Field.spread, Field.groupings, unjoinAll_append, unjoinAll_cons, unjoinAll_nil,
      unjoinAll_words, Expr.grouping_spread value]
  | .positional value => by
    simp only [Field.spread, Field.groupings, unjoinAll_cons, unjoinAll_nil,
      Expr.grouping_spread value]

theorem Body.groupings_spread : ∀ b : Body,
    (b.spread place).groupings = unjoinAll true b.groupings
  | .mk parameters block closing => by
    simp only [Body.spread, Body.groupings, unjoinAll_append, unjoinAll_words,
      Block.groupings_spread block]

/-- Taking the signed numbers of a block apart regroups the powers of which they
are the bases, and nothing else. -/
theorem Block.groupings_spread : ∀ b : Block,
    (b.spread place).groupings = unjoinAll true b.groupings
  | .mk statements => statementsGroupings_spread statements

theorem statementsGroupings_spread : ∀ xs : List Stat,
    statementsGroupings (statementsSpread place xs) = unjoinAll true (statementsGroupings xs)
  | [] => rfl
  | x :: rest => by
    simp only [statementsSpread, statementsGroupings, unjoinAll_append, Stat.groupings_spread x,
      statementsGroupings_spread rest]

theorem Stat.groupings_spread : ∀ x : Stat,
    (x.spread place).groupings = unjoinAll true x.groupings
  | .breakLoop word => (unjoinAll_words [word]).symm
  | .goto word target => (unjoinAll_words [word, target]).symm
  | .label opening name closing => (unjoinAll_words [opening, name, closing]).symm
  | .empty semicolon => (unjoinAll_words [semicolon]).symm
  | .doBlock word block closing => by
    simp only [Stat.spread, Stat.groupings, unjoinAll_append, unjoinAll_words,
      Block.groupings_spread block]
  | .whileLoop word condition opening block closing => by
    simp only [Stat.spread, Stat.groupings, unjoinAll_append, unjoinAll_cons, unjoinAll_words,
      Expr.grouping_spread condition, Block.groupings_spread block]
  | .repeatLoop word block closing condition => by
    simp only [Stat.spread, Stat.groupings, unjoinAll_append, unjoinAll_cons, unjoinAll_nil,
      unjoinAll_words, Expr.grouping_spread condition, Block.groupings_spread block]
  | .conditional first more otherwise closing => by
    simp only [Stat.spread, Stat.groupings, unjoinAll_append, unjoinAll_words,
      Branch.groupings_spread first, branchesGroupings_spread more,
      otherwiseGroupings_spread otherwise]
  | .countingLoop word name equals start comma stop step opening block closing => by
    simp only [Stat.spread, Stat.groupings, unjoinAll_append, unjoinAll_cons, unjoinAll_words,
      Expr.grouping_spread start, Expr.grouping_spread stop, stepGroupings_spread step,
      Block.groupings_spread block]
  | .iteration word name more between values opening block closing => by
    simp only [Stat.spread, Stat.groupings, unjoinAll_append, unjoinAll_words,
      Exprs.groupings_spread values, Block.groupings_spread block]
  | .function word name path method body => by
    simp only [Stat.spread, Stat.groupings, unjoinAll_append, unjoinAll_words,
      Body.groupings_spread body]
  | .localFunction word function name body => by
    simp only [Stat.spread, Stat.groupings, unjoinAll_append, unjoinAll_words,
      Body.groupings_spread body]
  | .localNames word first more none => (unjoinAll_words _).symm
  | .localNames word first more (some (equals, values)) => by
    simp only [Stat.spread, Stat.groupings, unjoinAll_append, unjoinAll_words,
      Exprs.groupings_spread values]
  | .result word none => (unjoinAll_words [word]).symm
  | .result word (some values) => by
    simp only [Stat.spread, Stat.groupings, unjoinAll_append, unjoinAll_words,
      Exprs.groupings_spread values]
  | .assignment first more equals values => by
    simp only [Stat.spread, Stat.groupings, unjoinAll_append, unjoinAll_words,
      Access.groupings_spread first, commaAccessesGroupings_spread more,
      Exprs.groupings_spread values]
  | .call callee => Access.groupings_spread callee

theorem commaAccessesGroupings_spread : ∀ more : List (Leaf × Access),
    commaAccessesGroupings (commaAccessesSpread place more) =
      unjoinAll true (commaAccessesGroupings more)
  | [] => rfl
  | (comma, a) :: rest => by
    simp only [commaAccessesSpread, commaAccessesGroupings, unjoinAll_append, unjoinAll_words,
      Access.groupings_spread a, commaAccessesGroupings_spread rest]

theorem Branch.groupings_spread : ∀ b : Branch,
    (b.spread place).groupings = unjoinAll true b.groupings
  | .mk word condition opening block => by
    simp only [Branch.spread, Branch.groupings, unjoinAll_append, unjoinAll_cons, unjoinAll_words,
      Expr.grouping_spread condition, Block.groupings_spread block]

theorem branchesGroupings_spread : ∀ bs : List Branch,
    branchesGroupings (branchesSpread place bs) = unjoinAll true (branchesGroupings bs)
  | [] => rfl
  | b :: rest => by
    simp only [branchesSpread, branchesGroupings, unjoinAll_append, Branch.groupings_spread b,
      branchesGroupings_spread rest]

theorem otherwiseGroupings_spread : ∀ otherwise : Option (Leaf × Block),
    otherwiseGroupings (otherwiseSpread place otherwise) =
      unjoinAll true (otherwiseGroupings otherwise)
  | none => rfl
  | some (word, block) => by
    simp only [otherwiseSpread, otherwiseGroupings, unjoinAll_append, unjoinAll_words,
      Block.groupings_spread block]

theorem stepGroupings_spread : ∀ step : Option (Leaf × Expr),
    stepGroupings (stepSpread place step) = unjoinAll true (stepGroupings step)
  | none => rfl
  | some (comma, step) => by
    simp only [stepSpread, stepGroupings, unjoinAll_append, unjoinAll_cons, unjoinAll_nil,
      unjoinAll_words, Expr.grouping_spread step]

end

end

end LuaLayout
