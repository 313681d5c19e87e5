/-
LuaLayout.Proofs.Grouping.Groupings — how the expressions of a tree group.

A grouping has a node for every operator that an expression applies, with the
operands it applies to; the operators of one expression apply from left to
right. Whatever else a tree holds stays in its place, text by text; so, unlike
a term, a grouping goes on inside brackets and blocks. A number may
carry its minus in its text. `unjoin` takes such numbers apart, in one of two
ways: the minus may apply to the number alone, or, where the number is the base
of a power, to the power. The two ways differ exactly if there is such a base.
-/
import LuaLayout.Proofs.Page.Words
import LuaLayout.Proofs.Tree.Leaves

namespace LuaLayout

/-! ## 1. Groupings -/

/-- The operators of a tree over their operands. -/
inductive Grouping
  /-- A text that is no number. -/
  | word (text : String)
  | number (text : String)
  | unary (operator : String) (argument : Grouping)
  | binary (operator : String) (left right : Grouping)
  /-- What no operator groups. -/
  | parts (pieces : List Grouping)

namespace Leaf

/-- The texts of leaves that no operator groups. -/
def words (leaves : List Leaf) : List Grouping := leaves.map (.word ·.token.text)

/-- The grouping of a literal. -/
def grouping (l : Leaf) : Grouping :=
  if l.token.kind = .number then .number l.token.text else .word l.token.text

end Leaf

mutual

/-- The grouping of an expression. -/
def Expr.grouping : Expr → Grouping
  | .mk operand operations => operationsGrouping operand.grouping operations

/-- Operators applied in order, to the given operand first. -/
def operationsGrouping (left : Grouping) : List (Leaf × Expr) → Grouping
  | [] => left
  | (operator, right) :: rest =>
    operationsGrouping (.binary operator.token.text left right.grouping) rest

/-- The grouping of an operand. -/
def Operand.grouping : Operand → Grouping
  | .unary operator argument => .unary operator.token.text argument.grouping
  | .literal value => value.grouping
  | .table fields => .parts fields.groupings
  | .function word body => .parts (Leaf.words [word] ++ body.groupings)
  | .access path => .parts path.groupings

/-- The groupings in an access. -/
def Access.groupings : Access → List Grouping
  | .mk root suffixes => root.groupings ++ suffixesGroupings suffixes

/-- The groupings in the start of an access. -/
def Root.groupings : Root → List Grouping
  | .name name => Leaf.words [name]
  | .group opening inner closing => Leaf.words [opening] ++ inner.grouping :: Leaf.words [closing]

/-- The groupings in suffixes. -/
def suffixesGroupings : List Suffix → List Grouping
  | [] => []
  | s :: rest => s.groupings ++ suffixesGroupings rest

/-- The groupings in one step of an access. -/
def Suffix.groupings : Suffix → List Grouping
  | .text string => Leaf.words [string]
  | .member separator name => Leaf.words [separator, name]
  | .index opening key closing => Leaf.words [opening] ++ key.grouping :: Leaf.words [closing]
  | .table fields => fields.groupings
  | .call opening none closing => Leaf.words [opening, closing]
  | .call opening (some arguments) closing =>
    Leaf.words [opening] ++ (arguments.groupings ++ Leaf.words [closing])

/-- The groupings of expressions with commas between them. -/
def Exprs.groupings : Exprs → List Grouping
  | .mk first more => first.grouping :: commaExprsGroupings more

/-- The groupings of expressions after commas. -/
def commaExprsGroupings : List (Leaf × Expr) → List Grouping
  | [] => []
  | (comma, e) :: rest => Leaf.words [comma] ++ e.grouping :: commaExprsGroupings rest

/-- The groupings in a table constructor. -/
def Table.groupings : Table → List Grouping
  | .empty opening closing => Leaf.words [opening, closing]
  | .fields opening first more trailing closing =>
    Leaf.words [opening] ++ (first.groupings ++ (fieldsGroupings more ++
      Leaf.words (trailing.toList ++ [closing])))

/-- The groupings in further fields. -/
def fieldsGroupings : List (Leaf × Field) → List Grouping
  | [] => []
  | (separator, f) :: rest => Leaf.words [separator] ++ (f.groupings ++ fieldsGroupings rest)

/-- The groupings in a field. -/
def Field.groupings : Field → List Grouping
  | .keyed opening key closing equals value =>
    Leaf.words [opening] ++ key.grouping :: (Leaf.words [closing, equals] ++ [value.grouping])
  | .named name equals value => Leaf.words [name, equals] ++ [value.grouping]
  | .positional value => [value.grouping]

/-- The groupings in a function without its name. -/
def Body.groupings : Body → List Grouping
  | .mk parameters block closing =>
    Leaf.words parameters.leaves ++ (block.groupings ++ Leaf.words [closing])

/-- The groupings in a block. -/
def Block.groupings : Block → List Grouping
  | .mk statements => statementsGroupings statements

/-- The groupings in statements. -/
def statementsGroupings : List Stat → List Grouping
  | [] => []
  | s :: rest => s.groupings ++ statementsGroupings rest

/-- The groupings in a statement. -/
def Stat.groupings : Stat → List Grouping
  | .breakLoop word => Leaf.words [word]
  | .goto word target => Leaf.words [word, target]
  | .label opening name closing => Leaf.words [opening, name, closing]
  | .empty semicolon => Leaf.words [semicolon]
  | .doBlock word block closing =>
    Leaf.words [word] ++ (block.groupings ++ Leaf.words [closing])
  | .whileLoop word condition opening block closing =>
    Leaf.words [word] ++ condition.grouping ::
      (Leaf.words [opening] ++ (block.groupings ++ Leaf.words [closing]))
  | .repeatLoop word block closing condition =>
    Leaf.words [word] ++ (block.groupings ++ (Leaf.words [closing] ++ [condition.grouping]))
  | .conditional first more otherwise closing =>
    first.groupings ++ (branchesGroupings more ++
      (otherwiseGroupings otherwise ++ Leaf.words [closing]))
  | .countingLoop word name equals start comma stop step opening block closing =>
    Leaf.words [word, name, equals] ++ start.grouping :: (Leaf.words [comma] ++
      stop.grouping :: (stepGroupings step ++ (Leaf.words [opening] ++
        (block.groupings ++ Leaf.words [closing]))))
  | .iteration word name more between values opening block closing =>
    Leaf.words (word :: name :: Leaf.ofPairs Leaf.alone more ++ [between]) ++ (values.groupings ++
      (Leaf.words [opening] ++ (block.groupings ++ Leaf.words [closing])))
  | .function word name path method body =>
    Leaf.words (word :: name :: (Leaf.ofPairs Leaf.alone path ++ Leaf.ofPair Leaf.alone method)) ++
      body.groupings
  | .localFunction word function name body =>
    Leaf.words [word, function, name] ++ body.groupings
  | .localNames word first more none =>
    Leaf.words (word :: (first.leaves ++ Leaf.ofPairs LocalName.leaves more))
  | .localNames word first more (some (equals, values)) =>
    Leaf.words (word :: (first.leaves ++ Leaf.ofPairs LocalName.leaves more) ++ [equals]) ++
      values.groupings
  | .result word none => Leaf.words [word]
  | .result word (some values) => Leaf.words [word] ++ values.groupings
  | .assignment first more equals values =>
    first.groupings ++ (commaAccessesGroupings more ++ (Leaf.words [equals] ++ values.groupings))
  | .call callee => callee.groupings

/-- The groupings in further targets of an assignment. -/
def commaAccessesGroupings : List (Leaf × Access) → List Grouping
  | [] => []
  | (comma, a) :: rest => Leaf.words [comma] ++ (a.groupings ++ commaAccessesGroupings rest)

/-- The groupings in a condition and its block. -/
def Branch.groupings : Branch → List Grouping
  | .mk word condition opening block =>
    Leaf.words [word] ++ condition.grouping :: (Leaf.words [opening] ++ block.groupings)

/-- The groupings in further conditions. -/
def branchesGroupings : List Branch → List Grouping
  | [] => []
  | b :: rest => b.groupings ++ branchesGroupings rest

/-- The groupings in what is done if no condition holds. -/
def otherwiseGroupings : Option (Leaf × Block) → List Grouping
  | none => []
  | some (word, block) => Leaf.words [word] ++ block.groupings

/-- The grouping of the step of a counting loop. -/
def stepGroupings : Option (Leaf × Expr) → List Grouping
  | none => []
  | some (comma, step) => Leaf.words [comma] ++ [step.grouping]

end

/-! ## 2. Signed numbers -/

/-- The number in a text that is a minus and a number. -/
def unsigned? (text : String) : Option String :=
  match unsign text with
  | [_, digits] => some digits
  | _ => none

theorem unsigned?_eq_none_iff {text : String} : unsigned? text = none ↔ unsign text = [text] := by
  rcases unsign_cases text with h | ⟨number, -, h⟩
  · simp [unsigned?, h]
  · simp [unsigned?, h]

namespace Grouping

/-- The number in a number that carries its minus. -/
def signed? : Grouping → Option String
  | number text => unsigned? text
  | _ => none

/-- The operator raises its left operand to a power. -/
def isPower (operator : String) : Bool := operator == "^"

end Grouping

mutual

/-- The grouping with every signed number taken apart. The minus applies to the
number, or, if powers bind `tighter`, to the power that the number is the base of. -/
def Grouping.unjoin (tighter : Bool) : Grouping → Grouping
  | .word text => .word text
  | .number text =>
    match unsigned? text with
    | some digits => .unary "-" (.number digits)
    | none => .number text
  | .unary operator argument => .unary operator (argument.unjoin tighter)
  | .binary operator left right =>
    match left.signed?, tighter && Grouping.isPower operator with
    | some digits, true =>
      .unary "-" (.binary operator (.number digits) (right.unjoin tighter))
    | _, _ => .binary operator (left.unjoin tighter) (right.unjoin tighter)
  | .parts pieces => .parts (unjoinAll tighter pieces)

/-- Each of the groupings with its signed numbers taken apart. -/
def unjoinAll (tighter : Bool) : List Grouping → List Grouping
  | [] => []
  | g :: rest => g.unjoin tighter :: unjoinAll tighter rest

end

mutual

/-- A signed number is the base of a power. -/
def Grouping.HasSignedBase : Grouping → Prop
  | .word _ => False
  | .number _ => False
  | .unary _ argument => argument.HasSignedBase
  | .binary operator left right =>
    (Grouping.isPower operator = true ∧ left.signed?.isSome = true) ∨ left.HasSignedBase ∨
      right.HasSignedBase
  | .parts pieces => AnySignedBase pieces

/-- A signed number is the base of a power in one of the groupings. -/
def AnySignedBase : List Grouping → Prop
  | [] => False
  | g :: rest => g.HasSignedBase ∨ AnySignedBase rest

end

section

variable {tighter : Bool} {operator : String} {left right : Grouping}

theorem Grouping.unjoin_number {text digits : String} (h : unsigned? text = some digits) :
    (number text).unjoin tighter = unary "-" (number digits) := by
  rw [unjoin, h]

theorem Grouping.unjoin_binary (h : left.signed? = none ∨ isPower operator = false) :
    (binary operator left right).unjoin tighter =
      binary operator (left.unjoin tighter) (right.unjoin tighter) := by
  rw [unjoin]
  split
  · next hsigned hpower =>
    rcases h with h | h
    · rw [h] at hsigned
      cases hsigned
    · rw [h, Bool.and_false] at hpower
      cases hpower
  · rfl

/-- The minus of a base applies to the power, if that binds tighter. -/
theorem Grouping.unjoin_power {digits : String} (hleft : left.signed? = some digits)
    (hpower : isPower operator = true) :
    (binary operator left right).unjoin true =
      unary "-" (binary operator (number digits) (right.unjoin true)) := by
  rw [unjoin, hleft, hpower]
  rfl

/-- The minus of a base applies to the base, if the power does not bind tighter. -/
theorem Grouping.unjoin_loose :
    (binary operator left right).unjoin false =
      binary operator (left.unjoin false) (right.unjoin false) := by
  rw [unjoin, Bool.false_and]
  split
  · next hfalse => cases hfalse
  · rfl

@[simp] theorem unjoinAll_nil : unjoinAll tighter [] = [] := rfl

@[simp] theorem unjoinAll_cons (g : Grouping) (rest : List Grouping) :
    unjoinAll tighter (g :: rest) = g.unjoin tighter :: unjoinAll tighter rest := rfl

@[simp] theorem unjoinAll_append (xs ys : List Grouping) :
    unjoinAll tighter (xs ++ ys) = unjoinAll tighter xs ++ unjoinAll tighter ys := by
  induction xs with
  | nil => rfl
  | cons g rest ih => simp [ih]

/-- Words hold no numbers. -/
@[simp] theorem unjoinAll_words (leaves : List Leaf) :
    unjoinAll tighter (Leaf.words leaves) = Leaf.words leaves := by
  induction leaves with
  | nil => rfl
  | cons l rest ih => exact congrArg (Grouping.word l.token.text :: ·) ih

end

mutual

/-- It makes a difference whether powers bind tighter exactly if a signed number
is the base of one. -/
theorem Grouping.unjoin_eq_iff : ∀ g : Grouping,
    g.unjoin true = g.unjoin false ↔ ¬ g.HasSignedBase
  | .word _ => by simp [Grouping.unjoin, Grouping.HasSignedBase]
  | .number _ => by simp [Grouping.unjoin, Grouping.HasSignedBase]
  | .unary operator argument => by
    simp only [Grouping.unjoin, Grouping.HasSignedBase, Grouping.unary.injEq, true_and]
    exact argument.unjoin_eq_iff
  | .binary operator left right => by
    have hleft := left.unjoin_eq_iff
    have hright := right.unjoin_eq_iff
    rw [Grouping.unjoin_loose, Grouping.HasSignedBase, not_or, not_or, ← hleft, ← hright]
    by_cases hbase : Grouping.isPower operator = true ∧ left.signed?.isSome = true
    · obtain ⟨digits, hsigned⟩ := Option.isSome_iff_exists.1 hbase.2
      rw [Grouping.unjoin_power hsigned hbase.1]
      exact ⟨fun h => (nomatch h), fun h => absurd hbase h.1⟩
    · have hnone : left.signed? = none ∨ Grouping.isPower operator = false := by
        cases hsigned : left.signed? with
        | none => exact .inl rfl
        | some digits => exact .inr (by simpa [hsigned] using hbase)
      rw [Grouping.unjoin_binary hnone, Grouping.binary.injEq]
      simp [hbase]
  | .parts pieces => by
    simp only [Grouping.unjoin, Grouping.HasSignedBase, Grouping.parts.injEq]
    exact unjoinAll_eq_iff pieces

theorem unjoinAll_eq_iff : ∀ pieces : List Grouping,
    unjoinAll true pieces = unjoinAll false pieces ↔ ¬ AnySignedBase pieces
  | [] => by simp [AnySignedBase]
  | g :: rest => by
    rw [unjoinAll_cons, unjoinAll_cons, List.cons.injEq, AnySignedBase, not_or,
      g.unjoin_eq_iff, unjoinAll_eq_iff rest]

end

end LuaLayout
