/-
LuaLayout.Proofs.Tree.Leaves — what a tree was read from.

The leaves of a tree in order are all that the tree holds. Nothing is dropped
here and nothing is rewritten: separators that the layout leaves out are leaves
like any other. `Leaf.front` looks at the first of some leaves, or at the token
that comes after them if there are none; it is how a part of a tree sees what
follows it.
-/
import LuaLayout.Parser.Basic

namespace LuaLayout

/-! ## 1. The front of a list of leaves -/

namespace Leaf

/-- The first token of the leaves, or the one that comes after them. -/
def front (leaves : List Leaf) (next : Option Token) : Option Token :=
  match leaves with
  | [] => next
  | l :: _ => some l.token

@[simp] theorem front_nil (next : Option Token) : front [] next = next := rfl

@[simp] theorem front_cons (l : Leaf) (rest : List Leaf) (next : Option Token) :
    front (l :: rest) next = some l.token := rfl

theorem front_append (xs ys : List Leaf) (next : Option Token) :
    front (xs ++ ys) next = front xs (front ys next) := by
  cases xs <;> rfl

/-- The leaves of a leaf and what comes after it, if there is such a pair. -/
def ofPair {α : Type} (leaves : α → List Leaf) : Option (Leaf × α) → List Leaf
  | none => []
  | some (l, a) => l :: leaves a

/-- The leaves of pairs of a leaf and what comes after it. -/
def ofPairs {α : Type} (leaves : α → List Leaf) : List (Leaf × α) → List Leaf
  | [] => []
  | (l, a) :: rest => l :: leaves a ++ ofPairs leaves rest

theorem ofPairs_toList {α : Type} (leaves : α → List Leaf) (pair : Option (Leaf × α)) :
    ofPairs leaves pair.toList = ofPair leaves pair := by
  cases pair with
  | none => rfl
  | some p => simp [ofPairs, ofPair]

end Leaf

namespace Parser

theorem tokenAt_zero_append (xs ys : List Leaf) :
    tokenAt 0 (xs ++ ys) = Leaf.front xs (tokenAt 0 ys) := by
  cases xs <;> rfl

/-- What a list begins with is the front of its first part. -/
theorem token_eq_of_append {l : Leaf} {u xs t : List Leaf} {token : Token} (h : l :: u = xs ++ t)
    (hfront : Leaf.front xs (tokenAt 0 t) = some token) : l.token = token := by
  have htoken : tokenAt 0 (l :: u) = tokenAt 0 (xs ++ t) := congrArg (tokenAt 0) h
  rw [tokenAt_zero_append, hfront] at htoken
  exact Option.some.inj htoken

end Parser

/-! ## 2. Parts without expressions -/

namespace Leaf

/-- A leaf alone. -/
def alone (l : Leaf) : List Leaf := [l]

@[simp] theorem alone_eq (l : Leaf) : l.alone = [l] := rfl

end Leaf

/-- The leaves of a mark. -/
def Mark.leaves (m : Mark) : List Leaf := [m.opening, m.word, m.closing]

/-- The leaves of a local name. -/
def LocalName.leaves (n : LocalName) : List Leaf :=
  n.name :: (n.mark.map Mark.leaves).getD []

/-- The leaves of a parameter list. -/
def Parameters.leaves : Parameters → List Leaf
  | .none opening closing => [opening, closing]
  | .some opening first more closing =>
    opening :: first :: Leaf.ofPairs Leaf.alone more ++ [closing]

/-! ## 3. Expressions and statements -/

mutual

/-- The leaves of an expression. -/
def Expr.leaves : Expr → List Leaf
  | .mk operand operations => operand.leaves ++ operationsLeaves operations

/-- The leaves of operators and their right operands. -/
def operationsLeaves : List (Leaf × Expr) → List Leaf
  | [] => []
  | (operator, right) :: rest => operator :: (right.leaves ++ operationsLeaves rest)

/-- The leaves of an operand. -/
def Operand.leaves : Operand → List Leaf
  | .unary operator argument => operator :: argument.leaves
  | .literal value => [value]
  | .table fields => fields.leaves
  | .function word body => word :: body.leaves
  | .access path => path.leaves

/-- The leaves of an access. -/
def Access.leaves : Access → List Leaf
  | .mk root suffixes => root.leaves ++ suffixesLeaves suffixes

/-- The leaves of the start of an access. -/
def Root.leaves : Root → List Leaf
  | .name name => [name]
  | .group opening inner closing => opening :: (inner.leaves ++ [closing])

/-- The leaves of suffixes. -/
def suffixesLeaves : List Suffix → List Leaf
  | [] => []
  | s :: rest => s.leaves ++ suffixesLeaves rest

/-- The leaves of one step of an access. -/
def Suffix.leaves : Suffix → List Leaf
  | .text string => [string]
  | .member separator name => [separator, name]
  | .index opening key closing => opening :: (key.leaves ++ [closing])
  | .table fields => fields.leaves
  | .call opening none closing => [opening, closing]
  | .call opening (some arguments) closing => opening :: (arguments.leaves ++ [closing])

/-- The leaves of expressions with commas between them. -/
def Exprs.leaves : Exprs → List Leaf
  | .mk first more => first.leaves ++ commaExprsLeaves more

/-- The leaves of expressions after commas. -/
def commaExprsLeaves : List (Leaf × Expr) → List Leaf
  | [] => []
  | (comma, e) :: rest => comma :: (e.leaves ++ commaExprsLeaves rest)

/-- The leaves of a table constructor. -/
def Table.leaves : Table → List Leaf
  | .empty opening closing => [opening, closing]
  | .fields opening first more trailing closing =>
    opening :: (first.leaves ++ (fieldsLeaves more ++ (trailing.toList ++ [closing])))

/-- The leaves of further fields. -/
def fieldsLeaves : List (Leaf × Field) → List Leaf
  | [] => []
  | (separator, f) :: rest => separator :: (f.leaves ++ fieldsLeaves rest)

/-- The leaves of a field. -/
def Field.leaves : Field → List Leaf
  | .keyed opening key closing equals value =>
    opening :: (key.leaves ++ closing :: equals :: value.leaves)
  | .named name equals value => name :: equals :: value.leaves
  | .positional value => value.leaves

/-- The leaves of a function without its name. -/
def Body.leaves : Body → List Leaf
  | .mk parameters block closing => parameters.leaves ++ (block.leaves ++ [closing])

/-- The leaves of a block. -/
def Block.leaves : Block → List Leaf
  | .mk statements => statementsLeaves statements

/-- The leaves of statements. -/
def statementsLeaves : List Stat → List Leaf
  | [] => []
  | s :: rest => s.leaves ++ statementsLeaves rest

/-- The leaves of a statement. -/
def Stat.leaves : Stat → List Leaf
  | .breakLoop word => [word]
  | .goto word target => [word, target]
  | .label opening name closing => [opening, name, closing]
  | .empty semicolon => [semicolon]
  | .doBlock word block closing => word :: (block.leaves ++ [closing])
  | .whileLoop word condition opening block closing =>
    word :: (condition.leaves ++ opening :: (block.leaves ++ [closing]))
  | .repeatLoop word block closing condition =>
    word :: (block.leaves ++ closing :: condition.leaves)
  | .conditional first more otherwise closing =>
    first.leaves ++ (branchesLeaves more ++ (otherwiseLeaves otherwise ++ [closing]))
  | .countingLoop word name equals start comma stop step opening block closing =>
    word :: name :: equals :: (start.leaves ++ comma :: (stop.leaves ++
      (stepLeaves step ++ opening :: (block.leaves ++ [closing]))))
  | .iteration word name more between values opening block closing =>
    word :: name :: (Leaf.ofPairs Leaf.alone more ++ between :: (values.leaves ++
      opening :: (block.leaves ++ [closing])))
  | .function word name path method body =>
    word :: name :: (Leaf.ofPairs Leaf.alone path ++
      (Leaf.ofPair Leaf.alone method ++ body.leaves))
  | .localFunction word function name body => word :: function :: name :: body.leaves
  | .localNames word first more none =>
    word :: (first.leaves ++ Leaf.ofPairs LocalName.leaves more)
  | .localNames word first more (some (equals, values)) =>
    word :: (first.leaves ++ (Leaf.ofPairs LocalName.leaves more ++ equals :: values.leaves))
  | .result word none => [word]
  | .result word (some values) => word :: values.leaves
  | .assignment first more equals values =>
    first.leaves ++ (commaAccessesLeaves more ++ equals :: values.leaves)
  | .call callee => callee.leaves

/-- The leaves of further targets of an assignment. -/
def commaAccessesLeaves : List (Leaf × Access) → List Leaf
  | [] => []
  | (comma, a) :: rest => comma :: (a.leaves ++ commaAccessesLeaves rest)

/-- The leaves of a condition and its block. -/
def Branch.leaves : Branch → List Leaf
  | .mk word condition opening block =>
    word :: (condition.leaves ++ opening :: block.leaves)

/-- The leaves of further conditions. -/
def branchesLeaves : List Branch → List Leaf
  | [] => []
  | b :: rest => b.leaves ++ branchesLeaves rest

/-- The leaves of what is done if no condition holds. -/
def otherwiseLeaves : Option (Leaf × Block) → List Leaf
  | none => []
  | some (word, block) => word :: block.leaves

/-- The leaves of the step of a counting loop. -/
def stepLeaves : Option (Leaf × Expr) → List Leaf
  | none => []
  | some (comma, step) => comma :: step.leaves

end

/-! ## 4. No part is without leaves -/

theorem Table.leaves_eq (t : Table) : ∃ rest, t.leaves = t.head :: rest := by
  cases t <;> exact ⟨_, rfl⟩

theorem Access.leaves_eq (a : Access) : ∃ rest, a.leaves = a.head :: rest := by
  obtain ⟨root, suffixes⟩ := a
  cases root <;> exact ⟨_, rfl⟩

theorem Operand.leaves_eq (o : Operand) : ∃ rest, o.leaves = o.head :: rest := by
  cases o with
  | unary operator argument => exact ⟨_, rfl⟩
  | literal value => exact ⟨_, rfl⟩
  | table fields => exact fields.leaves_eq
  | function word body => exact ⟨_, rfl⟩
  | access path => exact path.leaves_eq

/-- An expression begins with its head. -/
theorem Expr.leaves_eq (e : Expr) : ∃ rest, e.leaves = e.head :: rest := by
  obtain ⟨operand, operations⟩ := e
  obtain ⟨rest, h⟩ := operand.leaves_eq
  exact ⟨rest ++ operationsLeaves operations, by simp [Expr.leaves, Expr.head, h]⟩

/-! A part ahead shows its head, whatever comes after it. -/

theorem Table.front_leaves (t : Table) (next : Option Token) :
    Leaf.front t.leaves next = some t.head.token := by
  obtain ⟨rest, h⟩ := t.leaves_eq
  rw [h, Leaf.front_cons]

theorem Access.front_leaves (a : Access) (next : Option Token) :
    Leaf.front a.leaves next = some a.head.token := by
  obtain ⟨rest, h⟩ := a.leaves_eq
  rw [h, Leaf.front_cons]

theorem Operand.front_leaves (o : Operand) (next : Option Token) :
    Leaf.front o.leaves next = some o.head.token := by
  obtain ⟨rest, h⟩ := o.leaves_eq
  rw [h, Leaf.front_cons]

theorem Expr.front_leaves (e : Expr) (next : Option Token) :
    Leaf.front e.leaves next = some e.head.token := by
  obtain ⟨rest, h⟩ := e.leaves_eq
  rw [h, Leaf.front_cons]

theorem Exprs.leaves_eq (e : Exprs) : ∃ l rest, e.leaves = l :: rest := by
  obtain ⟨first, more⟩ := e
  obtain ⟨rest, h⟩ := first.leaves_eq
  exact ⟨first.head, rest ++ commaExprsLeaves more, by simp [Exprs.leaves, h]⟩

theorem Field.leaves_eq (f : Field) : ∃ l rest, f.leaves = l :: rest := by
  cases f with
  | keyed opening key closing equals value => exact ⟨_, _, rfl⟩
  | named name equals value => exact ⟨_, _, rfl⟩
  | positional value => exact ⟨_, value.leaves_eq⟩

theorem Suffix.leaves_eq (s : Suffix) : ∃ l rest, s.leaves = l :: rest := by
  cases s with
  | text string => exact ⟨_, _, rfl⟩
  | member separator name => exact ⟨_, _, rfl⟩
  | index opening key closing => exact ⟨_, _, rfl⟩
  | table fields => exact ⟨_, fields.leaves_eq⟩
  | call opening arguments closing => cases arguments <;> exact ⟨_, _, rfl⟩

theorem Branch.leaves_eq (b : Branch) : ∃ l rest, b.leaves = l :: rest := by
  obtain ⟨word, condition, opening, block⟩ := b
  exact ⟨_, _, rfl⟩

theorem Stat.leaves_eq (s : Stat) : ∃ l rest, s.leaves = l :: rest := by
  cases s with
  | conditional first more otherwise closing =>
    obtain ⟨l, rest, h⟩ := first.leaves_eq
    exact ⟨l, _, by simp only [Stat.leaves, h, List.cons_append]; rfl⟩
  | localNames word first more values => obtain _ | ⟨equals, values⟩ := values <;> exact ⟨_, _, rfl⟩
  | result word values => cases values <;> exact ⟨_, _, rfl⟩
  | assignment first more equals values =>
    obtain ⟨rest, h⟩ := first.leaves_eq
    exact ⟨first.head, _, by simp only [Stat.leaves, h, List.cons_append]; rfl⟩
  | call callee => exact ⟨_, callee.leaves_eq⟩
  | _ => exact ⟨_, _, rfl⟩

end LuaLayout
