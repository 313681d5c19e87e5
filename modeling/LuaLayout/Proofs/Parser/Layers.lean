/-
LuaLayout.Proofs.Parser.Layers — binding powers and the layered grammar.

The layered grammar has a level for every group of binary operators, one for
unary operators and one for powers. An operator of a level takes operands of
certain levels, and anything looser has to stand in parentheses. `Term.Written`
relates a term to the leaves that write it at a level; the leaves come as the
operands, each with the unary operators before it, and the binary operators
between them that stand outside all brackets.

Reading under a limit needs no level: an operator goes on with the expression as
long as its left power exceeds the limit. The two agree because a level and a
limit that admits it let through the same operators, and because the operators
that may end a level end every right operand in it. From that the expression
that is read groups the leaves as the term, and under a higher limit the reading
stops at the first operator outside all brackets that does not exceed it.
-/
import LuaLayout.Session
import LuaLayout.Proofs.Parser.Blocks

open LuaLayout.Parser

namespace LuaLayout

/-! ## 1. Levels -/

/-- The level of a binary operator and the levels of its two operands. -/
structure Layer where
  level : Nat
  left : Nat
  right : Nat
  deriving DecidableEq, Repr

namespace Layer

/-- The binary operators but the power, level by level, loosest first. -/
def levels : List (List String) :=
  [["or"], ["and"], ["<", ">", "<=", ">=", "~=", "=="], ["|"], ["~"], ["&"], ["<<", ">>"],
   [".."], ["+", "-"], ["*", "/", "//", "%"]]

/-- The level of unary operators, above all of these. -/
def unary : Nat := 10

/-- The level of powers, whose base is an atom and whose exponent is unary. -/
def power : Layer := ⟨11, 12, unary⟩

/-- The layer of a binary operator: left associative but for the power and the
concatenation. -/
def ofBinary? (text : String) : Option Layer :=
  if text = "^" then some power
  else (levels.findIdx? (·.contains text)).map fun level =>
    if text = ".." then ⟨level, level + 1, level⟩ else ⟨level, level, level + 1⟩

/-- The levels and the powers know the same operators. -/
theorem powers_of_ofBinary? {text : String} {layer : Layer} (h : ofBinary? text = some layer) :
    ∃ powers, Powers.ofBinary? text = some powers ∧ (text, powers) ∈ Powers.table := by
  have hmem : text ∈ "^" :: levels.flatten := by
    unfold ofBinary? at h
    split at h
    · next heq => simp [heq]
    · obtain ⟨level, hlevel, -⟩ := Option.map_eq_some_iff.1 h
      obtain ⟨hlt, hcontains, -⟩ := List.findIdx?_eq_some_iff_getElem.1 hlevel
      refine List.mem_cons_of_mem _ (List.mem_flatten.2 ⟨levels[level], List.getElem_mem hlt, ?_⟩)
      simpa using hcontains
  have hall : ∀ t ∈ "^" :: levels.flatten,
      ∃ p ∈ Powers.table, Powers.ofBinary? t = some p.2 ∧ p.1 = t := by decide
  obtain ⟨⟨name, powers⟩, hp, hpowers, rfl⟩ := hall text hmem
  exact ⟨powers, hpowers, hp⟩

/-- How the powers of an operator lie to those of the operators of other levels. -/
structure Agrees (layer : Layer) (powers : Powers) : Prop where
  /-- The operands stand no looser than the operator, a power's exponent apart. -/
  left_le : layer.level ≤ layer.left
  /-- The operator ends every right operand within its left operand. -/
  ends_left : ∀ p ∈ Powers.table, ∀ other ∈ ofBinary? p.1, layer.left ≤ other.level →
    powers.left ≤ p.2.right
  ends_unary : layer.left ≤ unary → powers.left ≤ Powers.unary
  /-- The limit of the right operand lets through exactly what belongs to it. -/
  admits_right : ∀ p ∈ Powers.table, ∀ other ∈ ofBinary? p.1, layer.right ≤ other.level →
    powers.right < p.2.left ∧ powers.right ≤ p.2.right
  right_le : powers.right ≤ 13

theorem agrees : ∀ p ∈ Powers.table, ∀ layer ∈ ofBinary? p.1, layer.Agrees p.2 := by
  have hleft : ∀ p ∈ Powers.table, ∀ layer ∈ ofBinary? p.1, layer.level ≤ layer.left ∧
      (layer.left ≤ unary → p.2.left ≤ Powers.unary) ∧ p.2.right ≤ 13 := by decide
  have hends : ∀ p ∈ Powers.table, ∀ layer ∈ ofBinary? p.1, ∀ q ∈ Powers.table,
      ∀ other ∈ ofBinary? q.1, (layer.left ≤ other.level → p.2.left ≤ q.2.right) ∧
        (layer.right ≤ other.level → p.2.right < q.2.left ∧ p.2.right ≤ q.2.right) := by
    decide
  intro p hp layer hlayer
  obtain ⟨hle, hunary, hright⟩ := hleft p hp layer hlayer
  exact ⟨hle, fun q hq other hother => (hends p hp layer hlayer q hq other hother).1, hunary,
    fun q hq other hother => (hends p hp layer hlayer q hq other hother).2, hright⟩

/-- The limit lets through every operator of the level and above. -/
def Admits (level : Nat) (limit : Int) : Prop :=
  ∀ p ∈ Powers.table, ∀ layer ∈ ofBinary? p.1, level ≤ layer.level → limit < p.2.left

/-- The powers belong to an operator that ends every right operand of the level
and above, and every unary operand. -/
def Bounds (level : Nat) (powers : Powers) : Prop :=
  (∀ p ∈ Powers.table, ∀ layer ∈ ofBinary? p.1, level ≤ layer.level → powers.left ≤ p.2.right) ∧
    (level ≤ unary → powers.left ≤ Powers.unary)

theorem admits_zero : Admits 0 0 := by unfold Admits; decide

theorem admits_unary : Admits unary Powers.unary := by unfold Admits; decide

theorem Admits.mono {level higher : Nat} {limit : Int} (h : Admits level limit)
    (hle : level ≤ higher) : Admits higher limit :=
  fun p hp layer hlayer hlevel => h p hp layer hlayer (Nat.le_trans hle hlevel)

/-- An operator that bounds a level bounds the right operands in it. -/
theorem Bounds.right {level : Nat} {layer : Layer} {p q : Powers} {text name : String}
    (h : Bounds level q) (hp : (text, p) ∈ Powers.table) (hlayer : ofBinary? text = some layer)
    (hlevel : level ≤ layer.level) (hq : (name, q) ∈ Powers.table) :
    Bounds layer.right q ∧ q.left ≤ p.right := by
  have hagrees := agrees _ hp layer hlayer
  have hle : q.left ≤ p.right := h.1 _ hp layer hlayer hlevel
  have hthirteen : ∀ r ∈ Powers.table, r.2.left ≠ 13 := by decide
  refine ⟨⟨?_, ?_⟩, hle⟩
  · intro r hr other hother hright
    exact Int.le_trans hle (hagrees.admits_right r hr other hother hright).2
  · intro _
    have hne := hthirteen _ hq
    have hright := hagrees.right_le
    simp only [Powers.unary] at hne hright ⊢
    omega

end Layer

/-! ## 2. Terms -/

/-- What an expression groups: operators applied to atoms. -/
inductive Term
  | atom (operand : Operand)
  | unary (operator : Leaf) (argument : Term)
  | binary (operator : Leaf) (left right : Term)

/-- An operand that holds together by itself: a literal, a table, a function, a
name or a chain of suffixes. A group without suffixes is the term inside it. -/
def Operand.IsAtom : Operand → Prop
  | .unary _ _ => False
  | .access (.mk (.group _ _ _) []) => False
  | o => o.Fits none

/-- The leaves of an operand and of the operators with their operands after it. -/
def spineLeaves (first : List Leaf) (more : List (Leaf × List Leaf)) : List Leaf :=
  first ++ more.flatMap fun (operator, operand) => operator :: operand

/-- The leaves that write a term at a level of the grammar. The first operand
stands by itself, and each further one after the binary operator before it; unary
operators belong to the operand that they stand before. Parentheses may stand
around any part, and have to where its level is too loose. -/
inductive Term.Written : Nat → Term → List Leaf → List (Leaf × List Leaf) → Prop
  | atom {level : Nat} {o : Operand} : o.IsAtom → Written level (.atom o) o.leaves []
  | group {level : Nat} {t : Term} {opening closing : Leaf} {first : List Leaf}
      {more : List (Leaf × List Leaf)} : opening.IsSymbol "(" → closing.IsSymbol ")" →
      Written 0 t first more → Written level t (opening :: spineLeaves first more ++ [closing]) []
  | unary {level : Nat} {t : Term} {operator : Leaf} {first : List Leaf}
      {more : List (Leaf × List Leaf)} : level ≤ Layer.unary → isUnary operator.token = true →
      Written Layer.unary t first more → Written level (.unary operator t) (operator :: first) more
  | binary {level : Nat} {layer : Layer} {l r : Term} {operator : Leaf} {first second : List Leaf}
      {more later : List (Leaf × List Leaf)} : level ≤ layer.level →
      operator.token.kind = .operator → Layer.ofBinary? operator.token.text = some layer →
      Written layer.left l first more → Written layer.right r second later →
      Written level (.binary operator l r) first (more ++ (operator, second) :: later)

mutual

/-- What an expression groups: its operators apply from left to right, and each
right operand is an expression of its own. -/
def Expr.term : Expr → Term
  | .mk operand operations => operationsTerm operand.term operations

/-- Operators applied in order. -/
def operationsTerm (left : Term) : List (Leaf × Expr) → Term
  | [] => left
  | (operator, right) :: rest => operationsTerm (.binary operator left right.term) rest

/-- What an operand groups; parentheses leave no trace. -/
def Operand.term : Operand → Term
  | .unary operator argument => .unary operator argument.term
  | .access (.mk (.group _ inner _) []) => inner.term
  | o => .atom o

end

mutual

/-- The operands of an expression and the binary operators between them that
stand outside all brackets. -/
def Expr.spine : Expr → List Leaf × List (Leaf × List Leaf)
  | .mk operand operations => (operand.spine.1, operand.spine.2 ++ operationsSpine operations)

/-- The operators in order with their operands. -/
def operationsSpine : List (Leaf × Expr) → List (Leaf × List Leaf)
  | [] => []
  | (operator, right) :: rest =>
    (operator, right.spine.1) :: right.spine.2 ++ operationsSpine rest

/-- The unary operators of an operand stand before its first one. -/
def Operand.spine : Operand → List Leaf × List (Leaf × List Leaf)
  | .unary operator argument => (operator :: argument.spine.1, argument.spine.2)
  | o => (o.leaves, [])

end

/-! ## 3. Spines and terms of trees -/

mutual

/-- The spine holds all the leaves, in order. -/
theorem Expr.leaves_spine (e : Expr) : e.leaves = spineLeaves e.spine.1 e.spine.2 := by
  cases e with
  | mk operand operations =>
    have hoperand := Operand.leaves_spine operand
    have hoperations := operationsLeaves_spine operations
    simp only [spineLeaves] at hoperand
    simp [Expr.leaves, Expr.spine, spineLeaves, hoperand, hoperations]

theorem operationsLeaves_spine (operations : List (Leaf × Expr)) :
    operationsLeaves operations =
      (operationsSpine operations).flatMap fun (operator, operand) => operator :: operand := by
  cases operations with
  | nil => rfl
  | cons p rest =>
    obtain ⟨operator, right⟩ := p
    have hright := Expr.leaves_spine right
    have hrest := operationsLeaves_spine rest
    simp only [spineLeaves] at hright
    simp [operationsLeaves, operationsSpine, hright, hrest]

theorem Operand.leaves_spine (o : Operand) : o.leaves = spineLeaves o.spine.1 o.spine.2 := by
  cases o with
  | unary operator argument =>
    have hargument := Expr.leaves_spine argument
    simp only [spineLeaves] at hargument
    simp [Operand.leaves, Operand.spine, spineLeaves, hargument]
  | _ => simp [Operand.spine, spineLeaves]

end

theorem operationsLeaves_append (xs ys : List (Leaf × Expr)) :
    operationsLeaves (xs ++ ys) = operationsLeaves xs ++ operationsLeaves ys := by
  induction xs with
  | nil => rfl
  | cons p rest ih => simp [operationsLeaves, ih]

theorem operationsSpine_append (xs ys : List (Leaf × Expr)) :
    operationsSpine (xs ++ ys) = operationsSpine xs ++ operationsSpine ys := by
  induction xs with
  | nil => rfl
  | cons p rest ih => simp [operationsSpine, ih]

theorem operationsTerm_append (t : Term) (xs : List (Leaf × Expr)) (operator : Leaf) (right : Expr) :
    operationsTerm t (xs ++ [(operator, right)]) =
      .binary operator (operationsTerm t xs) right.term := by
  induction xs generalizing t with
  | nil => rfl
  | cons p rest ih => exact ih _

namespace Operand.IsAtom

variable {o : Operand}

theorem spine_eq (h : o.IsAtom) : o.spine = (o.leaves, []) := by
  cases o with
  | unary operator argument => exact h.elim
  | _ => rfl

theorem term_eq (h : o.IsAtom) : o.term = .atom o := by
  cases o with
  | unary operator argument => exact h.elim
  | access path =>
    obtain ⟨root, suffixes⟩ := path
    cases root with
    | name name => rfl
    | group opening inner closing =>
      cases suffixes with
      | nil => exact h.elim
      | cons s rest => rfl
  | _ => rfl

theorem fits_none (h : o.IsAtom) : o.Fits none := by
  cases o with
  | unary operator argument => exact h.elim
  | access path =>
    obtain ⟨root, suffixes⟩ := path
    cases root with
    | name name => exact h
    | group opening inner closing =>
      cases suffixes with
      | nil => exact h.elim
      | cons s rest => exact h
  | _ => exact h

/-- An atom fits before every token that continues no chain of suffixes. -/
theorem fits (h : o.IsAtom) {next : Option Token} (hends : EndsAccess next) : o.Fits next := by
  have hnone := h.fits_none
  have hsuffixes : ∀ suffixes, SuffixesFit none suffixes → SuffixesFit next suffixes := by
    intro suffixes
    induction suffixes with
    | nil => exact fun _ => hends
    | cons s rest ih => exact fun hfit => ⟨hfit.1, ih hfit.2⟩
  cases o with
  | unary operator argument => exact h.elim
  | access path =>
    obtain ⟨root, suffixes⟩ := path
    exact ⟨hnone.1, hsuffixes suffixes hnone.2⟩
  | _ => exact hnone

end Operand.IsAtom

/-! ## 4. Operators that go on -/

/-- Operators that go on under a limit, whether or not one more would. -/
def OperationsJoin (limit : Int) (next : Option Token) : List (Leaf × Expr) → Prop
  | [] => True
  | (operator, right) :: rest =>
    (∃ powers, continuing? limit operator.token = some powers ∧
      right.Fits powers.right (Leaf.front (operationsLeaves rest) next)) ∧
    OperationsJoin limit next rest

section

variable {limit : Int} {next : Option Token} {t : Token} {powers : Powers}

theorem operationsFit_iff {operations : List (Leaf × Expr)} :
    OperationsFit limit next operations ↔
      OperationsJoin limit next operations ∧ EndsExpr limit next := by
  induction operations with
  | nil => simp [OperationsFit, OperationsJoin]
  | cons p rest ih => simp [OperationsFit, OperationsJoin, ih, and_assoc]

theorem operationsJoin_append {xs ys : List (Leaf × Expr)} :
    OperationsJoin limit next (xs ++ ys) ↔
      OperationsJoin limit (Leaf.front (operationsLeaves ys) next) xs ∧
        OperationsJoin limit next ys := by
  induction xs with
  | nil => simp [OperationsJoin]
  | cons p rest ih =>
    simp [OperationsJoin, ih, operationsLeaves_append, Leaf.front_append, and_assoc]

theorem continuing?_eq_some_iff :
    continuing? limit t = some powers ↔ binaryPowers? t = some powers ∧ limit < powers.left := by
  simp [continuing?, Option.filter_eq_some_iff]

/-- A binary operator is one of the table. -/
theorem mem_table_of_binaryPowers? (h : binaryPowers? t = some powers) :
    (t.text, powers) ∈ Powers.table ∧ t.kind = .operator := by
  unfold binaryPowers? at h
  split at h
  · next hkind =>
    obtain ⟨before, after, heq, -⟩ := List.lookup_eq_some_iff.1 h
    exact ⟨by rw [heq]; simp, by simpa using hkind⟩
  · cases h

/-- No binary operator continues a chain of suffixes. -/
theorem endsAccess_of_binaryPowers? (h : binaryPowers? t = some powers) :
    EndsAccess (some t) := by
  obtain ⟨hmem, hkind⟩ := mem_table_of_binaryPowers? h
  have hall : ∀ p ∈ Powers.table, p.1 ∉ [".", ":", "[", "\x7b", "("] := by decide
  have htext := hall _ hmem
  simp only [List.mem_cons, List.not_mem_nil, or_false, not_or] at htext
  intro u hu
  cases hu
  simp [Token.startsSuffix, Token.isOperator, hkind, htext]

/-- The closing parenthesis ends an expression and its last operand. -/
theorem closing_ends {closing : Leaf} (h : closing.IsSymbol ")") :
    binaryPowers? closing.token = none ∧ EndsAccess (some closing.token) := by
  obtain ⟨hkind, htext⟩ := Token.isOperator_iff.1 h
  refine ⟨?_, ?_⟩
  · rw [binaryPowers?, hkind, htext]
    rfl
  · intro u hu
    cases hu
    simp [Token.startsSuffix, Token.isOperator, hkind, htext]

theorem endsExpr_of_none (h : ∀ u ∈ next, binaryPowers? u = none) : EndsExpr limit next := by
  cases next with
  | none => rfl
  | some u => simp [EndsExpr, continuing?, h u rfl]

theorem endsExpr_of_le (h : ∀ u ∈ next, ∀ q, binaryPowers? u = some q → q.left ≤ limit) :
    EndsExpr limit next := by
  cases next with
  | none => rfl
  | some u =>
    rw [EndsExpr, Option.bind_some, Option.eq_none_iff_forall_ne_some]
    intro q hq
    obtain ⟨hpowers, hlt⟩ := continuing?_eq_some_iff.1 hq
    have hle := h u rfl q hpowers
    omega

end

/-! ## 5. From the layered grammar to trees that fit -/

/-- The token is no binary operator, or one that bounds the level. -/
def Bounded (level : Nat) (next : Option Token) : Prop :=
  ∀ u ∈ next, ∀ powers, binaryPowers? u = some powers → Layer.Bounds level powers

/-- What writes a term at a level is read as an expression that groups it, under
every limit that admits the level. -/
theorem Term.Written.fits {level : Nat} {t : Term} {first : List Leaf}
    {more : List (Leaf × List Leaf)} (h : t.Written level first more) {limit : Int}
    {next : Option Token} (hadmits : Layer.Admits level limit) (hbounded : Bounded level next)
    (hends : EndsAccess next) :
    ∃ o operations, (Expr.mk o operations).spine = (first, more) ∧
      (Expr.mk o operations).term = t ∧
      o.Fits (Leaf.front (operationsLeaves operations) next) ∧
      OperationsJoin limit next operations := by
  induction h generalizing limit next with
  | atom hatom =>
    exact ⟨_, [], by simp [Expr.spine, operationsSpine, hatom.spine_eq],
      by simp [Expr.term, operationsTerm, hatom.term_eq], hatom.fits hends, trivial⟩
  | @group level t opening closing first more hopening hclosing _ ih =>
    obtain ⟨hnone, haccess⟩ := closing_ends hclosing
    have hnext : ∀ u ∈ some closing.token, binaryPowers? u = none := by
      intro u hu
      cases hu
      exact hnone
    have hbound : Bounded 0 (some closing.token) := by
      intro u hu powers hpowers
      rw [hnext u hu] at hpowers
      cases hpowers
    obtain ⟨o, operations, hspine, hterm, hfits, hjoin⟩ := ih Layer.admits_zero hbound haccess
    have hinner : (Expr.mk o operations).Fits 0 (some closing.token) :=
      ⟨hfits, operationsFit_iff.2 ⟨hjoin, endsExpr_of_none hnext⟩⟩
    have hleaves := (Expr.mk o operations).leaves_spine
    rw [hspine] at hleaves
    refine ⟨.access (.mk (.group opening (.mk o operations) closing) []), [], ?_, hterm,
      ⟨⟨hopening, hinner, (Token.isOperator_iff.1 hclosing).2⟩, hends⟩, trivial⟩
    simp [Expr.spine, operationsSpine, Operand.spine, Operand.leaves, Access.leaves, Root.leaves,
      suffixesLeaves, hleaves]
  | @unary level t operator first more hlevel hunary _ ih =>
    have hbound : Bounded Layer.unary next := by
      intro u hu powers hpowers
      obtain ⟨hright, hleft⟩ := hbounded u hu powers hpowers
      exact ⟨fun p hp layer hlayer hle => hright p hp layer hlayer (Nat.le_trans hlevel hle),
        fun _ => hleft hlevel⟩
    obtain ⟨o, operations, hspine, hterm, hfits, hjoin⟩ := ih Layer.admits_unary hbound hends
    have hend : EndsExpr Powers.unary next :=
      endsExpr_of_le fun u hu powers hpowers => (hbound u hu powers hpowers).2 (Nat.le_refl _)
    refine ⟨.unary operator (.mk o operations), [], ?_, ?_,
      ⟨hunary, hfits, operationsFit_iff.2 ⟨hjoin, hend⟩⟩, trivial⟩
    · rw [Expr.spine, Operand.spine, hspine]
      simp [operationsSpine]
    · rw [Expr.term, operationsTerm, Operand.term, hterm]
  | @binary level layer l r operator first second more later hlevel hkind hlayer _ _ ihl ihr =>
    obtain ⟨powers, hpowers, hmem⟩ := Layer.powers_of_ofBinary? hlayer
    have hagrees := Layer.agrees _ hmem layer hlayer
    have hbinary : binaryPowers? operator.token = some powers := by
      rw [binaryPowers?, hkind]
      exact hpowers
    -- The operator ends the left operand, whatever stands last in it.
    have hleft : Bounded layer.left (some operator.token) := by
      intro u hu q hq
      cases hu
      rw [hbinary] at hq
      cases hq
      exact ⟨hagrees.ends_left, hagrees.ends_unary⟩
    have hright : Bounded layer.right next := fun u hu q hq =>
      ((hbounded u hu q hq).right hmem hlayer hlevel (mem_table_of_binaryPowers? hq).1).1
    have hend : EndsExpr powers.right next := endsExpr_of_le fun u hu q hq =>
      ((hbounded u hu q hq).right hmem hlayer hlevel (mem_table_of_binaryPowers? hq).1).2
    have hpast : limit < powers.left := hadmits _ hmem layer hlayer hlevel
    obtain ⟨o, operations, hspine, hterm, hfits, hjoin⟩ :=
      ihl (hadmits.mono (Nat.le_trans hlevel hagrees.left_le)) hleft
        (endsAccess_of_binaryPowers? hbinary)
    obtain ⟨o', operations', hspine', hterm', hfits', hjoin'⟩ :=
      ihr (fun p hp other hother hle => (hagrees.admits_right p hp other hother hle).1) hright hends
    refine ⟨o, operations ++ [(operator, .mk o' operations')], ?_, ?_, ?_, ?_⟩
    · simp only [Expr.spine, Prod.mk.injEq] at hspine hspine' ⊢
      rw [operationsSpine_append, ← List.append_assoc, hspine.2]
      simp [operationsSpine, Expr.spine, hspine.1, hspine'.1, hspine'.2]
    · rw [Expr.term, operationsTerm_append, hterm', ← hterm, Expr.term]
    · rwa [operationsLeaves_append, Leaf.front_append]
    · refine operationsJoin_append.2 ⟨hjoin, ⟨powers, continuing?_eq_some_iff.2 ⟨hbinary, hpast⟩,
        hfits', operationsFit_iff.2 ⟨hjoin', hend⟩⟩, trivial⟩

/-! ## 6. Reading under a limit -/

/-- The binary operator binds tighter than the limit. -/
def exceeds (limit : Int) (p : Leaf × List Leaf) : Bool :=
  (binaryPowers? p.1.token).any (limit < ·.left)

mutual

/-- The operators of an expression that stand outside all brackets exceed the
limit that it is read under. -/
theorem Expr.exceeds_spine (e : Expr) {limit : Int} {next : Option Token} (hlimit : limit ≤ 13)
    (h : e.Fits limit next) : ∀ p ∈ e.spine.2, exceeds limit p = true := by
  cases e with
  | mk operand operations =>
    intro p hp
    rcases List.mem_append.1 hp with hp | hp
    · exact Operand.exceeds_spine operand hlimit h.1 p hp
    · exact exceeds_operationsSpine operations hlimit (operationsFit_iff.1 h.2).1 p hp

theorem exceeds_operationsSpine (operations : List (Leaf × Expr)) {limit : Int}
    {next : Option Token} (hlimit : limit ≤ 13) (h : OperationsJoin limit next operations) :
    ∀ p ∈ operationsSpine operations, exceeds limit p = true := by
  cases operations with
  | nil => simp [operationsSpine]
  | cons q rest =>
    obtain ⟨operator, right⟩ := q
    obtain ⟨⟨powers, hcontinuing, hright⟩, hrest⟩ := h
    obtain ⟨hbinary, hpast⟩ := continuing?_eq_some_iff.1 hcontinuing
    have hpowers : ∀ p ∈ Powers.table, p.2.left ≤ p.2.right + 1 ∧ p.2.right ≤ 13 := by decide
    obtain ⟨hclose, hthirteen⟩ := hpowers _ (mem_table_of_binaryPowers? hbinary).1
    intro p hp
    rcases List.mem_cons.1 hp with rfl | hp
    · simp [exceeds, hbinary, hpast]
    · rcases List.mem_append.1 hp with hp | hp
      · have hinner := Expr.exceeds_spine right hthirteen hright p hp
        simp only [exceeds, Option.any_eq_true, decide_eq_true_eq] at hinner ⊢
        obtain ⟨q, hq, hlt⟩ := hinner
        simp only at hclose hpast
        exact ⟨q, hq, by omega⟩
      · exact exceeds_operationsSpine rest hlimit hrest p hp

theorem Operand.exceeds_spine (o : Operand) {limit : Int} {next : Option Token} (hlimit : limit ≤ 13)
    (h : o.Fits next) : ∀ p ∈ o.spine.2, exceeds limit p = true := by
  cases o with
  | unary operator argument =>
    intro p hp
    have hinner := Expr.exceeds_spine argument (by decide) h.2 p hp
    simp only [exceeds, Option.any_eq_true, decide_eq_true_eq] at hinner ⊢
    obtain ⟨q, hq, hlt⟩ := hinner
    -- Only the power binds tighter than a unary operator, and it exceeds every limit.
    have hpower : ∀ p ∈ Powers.table, Powers.unary < p.2.left → 13 < p.2.left := by decide
    have hleft := hpower _ (mem_table_of_binaryPowers? hq).1 hlt
    simp only at hleft
    exact ⟨q, hq, by omega⟩
  | _ => simp [Operand.spine]

end

/-- The leaves of operators and their operands. -/
def tailLeaves (more : List (Leaf × List Leaf)) : List Leaf :=
  more.flatMap fun (operator, operand) => operator :: operand

section

variable {low limit : Int} {next : Option Token}

theorem OperationsJoin.raise {operations : List (Leaf × Expr)}
    (h : OperationsJoin low next operations)
    (hall : ∀ p ∈ operations, exceeds limit (p.1, []) = true) :
    OperationsJoin limit next operations := by
  induction operations with
  | nil => trivial
  | cons p rest ih =>
    obtain ⟨hp, hrest⟩ := List.forall_mem_cons.1 hall
    obtain ⟨⟨powers, hcontinuing, hright⟩, hlater⟩ := h
    obtain ⟨hbinary, -⟩ := continuing?_eq_some_iff.1 hcontinuing
    have hpast : limit < powers.left := by simpa [exceeds, hbinary] using hp
    exact ⟨⟨powers, continuing?_eq_some_iff.2 ⟨hbinary, hpast⟩, hright⟩, ih hlater hrest⟩

/-- An operator that does not exceed the limit ends what is read under it. -/
theorem endsExpr_front {operations : List (Leaf × Expr)}
    (hhead : ∀ p ∈ operations.head?, exceeds limit (p.1, []) = false)
    (hnext : ∀ u ∈ next, binaryPowers? u = none) :
    EndsExpr limit (Leaf.front (operationsLeaves operations) next) := by
  cases operations with
  | nil => exact endsExpr_of_none hnext
  | cons p rest =>
    have hp := hhead p rfl
    refine endsExpr_of_le fun u hu q hq => ?_
    obtain rfl : p.1.token = u := Option.some.inj hu
    simp only [exceeds, hq, Option.any_some, decide_eq_false_iff_not] at hp
    omega

/-- An expression that fits under a limit is cut under a higher one, right before
its first operator outside all brackets that does not exceed it. -/
theorem Expr.Fits.cut {e : Expr} (h : e.Fits low next) (hlimit : limit ≤ 13)
    (hnext : ∀ u ∈ next, binaryPowers? u = none) :
    ∃ x : Expr, x.leaves = spineLeaves e.spine.1 (e.spine.2.takeWhile (exceeds limit)) ∧
      x.Fits limit (Leaf.front (tailLeaves (e.spine.2.dropWhile (exceeds limit))) next) := by
  obtain ⟨o, operations⟩ := e
  obtain ⟨taken, left, hsplit, hall, hhead⟩ : ∃ taken left, operations = taken ++ left ∧
      (∀ p ∈ taken, exceeds limit (p.1, []) = true) ∧
      ∀ p ∈ left.head?, exceeds limit (p.1, []) = false := by
    refine ⟨operations.takeWhile fun p => exceeds limit (p.1, []),
      operations.dropWhile fun p => exceeds limit (p.1, []),
      List.takeWhile_append_dropWhile.symm,
      fun p hp => List.all_eq_true.1 List.all_takeWhile p hp, ?_⟩
    intro p hp
    have hnot := List.head?_dropWhile_not (fun p : Leaf × Expr => exceeds limit (p.1, [])) operations
    rw [hp] at hnot
    simpa using hnot
  subst hsplit
  obtain ⟨hoperand, hoperations⟩ := h
  obtain ⟨hjoin, -⟩ := operationsFit_iff.1 hoperations
  have htaken := (operationsJoin_append.1 hjoin).1.raise hall
  rw [operationsLeaves_append, Leaf.front_append] at hoperand
  have hfits : (Expr.mk o taken).Fits limit (Leaf.front (operationsLeaves left) next) :=
    ⟨hoperand, operationsFit_iff.2 ⟨htaken, endsExpr_front hhead hnext⟩⟩
  have hspine : (Expr.mk o (taken ++ left)).spine =
      ((Expr.mk o taken).spine.1, (Expr.mk o taken).spine.2 ++ operationsSpine left) := by
    simp [Expr.spine, operationsSpine_append]
  have hexceed := Expr.exceeds_spine _ hlimit hfits
  have hstop : (operationsSpine left).takeWhile (exceeds limit) = [] ∧
      (operationsSpine left).dropWhile (exceeds limit) = operationsSpine left := by
    cases left with
    | nil => exact ⟨rfl, rfl⟩
    | cons p rest =>
      have hp : exceeds limit (p.1, p.2.spine.1) = false := hhead p rfl
      simp [operationsSpine, hp]
  refine ⟨.mk o taken, ?_, ?_⟩
  · rw [hspine, List.takeWhile_append_of_pos hexceed, hstop.1, List.append_nil, Expr.leaves_spine]
  · rw [hspine, List.dropWhile_append_of_pos hexceed, hstop.2, tailLeaves,
      ← operationsLeaves_spine]
    exact hfits

end

/-! ## 7. Reading what is written -/

/-- The rules for some leaves read an expression from them exactly. -/
theorem Rules.forLeaves_expression_eq_ok_iff {s t : List Leaf} {limit : Int} {e : Expr} :
    (forLeaves true s).expression limit s = .ok (e, t) ↔
      s = e.leaves ++ t ∧ e.Fits limit (tokenAt 0 t) :=
  (ofDepth_exact s.length).expression (Nat.le_refl _)

section

variable {e : Term} {first t : List Leaf} {more : List (Leaf × List Leaf)} {s : Session}

/-- What is read is laid out, and the rest is still ahead. -/
theorem Session.perform_expression {limit : Int} {x : Expr} (hblocks : s.style.blocks = true)
    (hahead : s.ahead = x.leaves ++ t) (hfits : x.Fits limit (tokenAt 0 t)) (indent : Int) :
    s.perform (.expression indent limit) = .ok (.nothing,
      { s with ahead := t, page := s.page.layAll (x.layout s.style.groups indent) }) := by
  have hread : s.rules.expression limit s.ahead = .ok (x, t) := by
    rw [rules, hblocks]
    exact Rules.forLeaves_expression_eq_ok_iff.2 ⟨hahead, hfits⟩
  rw [perform, renderSilently, render, StateT.run, hread]
  rfl

/-- Reading under binding powers agrees with the layered grammar. An expression
that writes a term is consumed whole and grouped as the term, and under a limit
it is consumed up to its first operator outside all brackets that does not exceed
the limit. -/
theorem perform_expression_written (hwritten : e.Written 0 first more)
    (hnone : ∀ u ∈ tokenAt 0 t, binaryPowers? u = none) (hends : EndsAccess (tokenAt 0 t))
    (hblocks : s.style.blocks = true) (hahead : s.ahead = spineLeaves first more ++ t) :
    (∃ x : Expr, x.leaves = spineLeaves first more ∧ x.term = e ∧ ∀ indent,
      s.perform (.expression indent 0) = .ok (.nothing,
        { s with ahead := t, page := s.page.layAll (x.layout s.style.groups indent) })) ∧
    ∀ limit ≤ 13, ∃ x : Expr, x.leaves = spineLeaves first (more.takeWhile (exceeds limit)) ∧
      ∀ indent, s.perform (.expression indent limit) = .ok (.nothing,
        { s with
          ahead := tailLeaves (more.dropWhile (exceeds limit)) ++ t
          page := s.page.layAll (x.layout s.style.groups indent) }) := by
  have hbounded : Bounded 0 (tokenAt 0 t) := by
    intro u hu powers hpowers
    rw [hnone u hu] at hpowers
    cases hpowers
  -- Every limit up to zero lets all operators through.
  have hfull : ∀ limit ≤ 0, ∃ x : Expr, x.spine = (first, more) ∧ x.term = e ∧
      x.Fits limit (tokenAt 0 t) := by
    intro limit hle
    have hadmits : Layer.Admits 0 limit := fun p hp layer hlayer hlevel =>
      Int.lt_of_le_of_lt hle (Layer.admits_zero p hp layer hlayer hlevel)
    obtain ⟨o, operations, hspine, hterm, hfits, hjoin⟩ := hwritten.fits hadmits hbounded hends
    exact ⟨.mk o operations, hspine, hterm, hfits,
      operationsFit_iff.2 ⟨hjoin, endsExpr_of_none hnone⟩⟩
  constructor
  · obtain ⟨x, hspine, hterm, hfits⟩ := hfull 0 (Int.le_refl 0)
    have hleaves := x.leaves_spine
    rw [hspine] at hleaves
    exact ⟨x, hleaves, hterm, Session.perform_expression hblocks (by rw [hahead, hleaves]) hfits⟩
  · intro limit hlimit
    obtain ⟨whole, hspine, -, hwhole⟩ := hfull 0 (Int.le_refl 0)
    obtain ⟨x, hleaves, hfits⟩ := hwhole.cut hlimit hnone
    rw [hspine] at hleaves hfits
    refine ⟨x, hleaves, Session.perform_expression hblocks ?_ ?_⟩
    · have hmore : tailLeaves more = tailLeaves (more.takeWhile (exceeds limit)) ++
          tailLeaves (more.dropWhile (exceeds limit)) := by
        rw [tailLeaves, tailLeaves, tailLeaves, ← List.flatMap_append,
          List.takeWhile_append_dropWhile]
      have hwhole : s.ahead = first ++ tailLeaves more ++ t := hahead
      rw [hwhole, hmore, hleaves]
      simp [spineLeaves, tailLeaves]
    · rwa [tokenAt_zero_append]

/-- A minus in front of a power: the marks on the page show that the power is read
inside the operand of the minus. -/
theorem perform_expression_written_power :
    ∃ x : Expr,
      x.term = .unary ⟨⟨.operator, "-", Position.start⟩, []⟩
        (.binary ⟨⟨.operator, "^", Position.start⟩, []⟩
          (.atom (.access (.mk (.name ⟨⟨.name, "x", Position.start⟩, []⟩) [])))
          (.atom (.literal ⟨⟨.number, "2", Position.start⟩, []⟩))) ∧
      (Session.start .grouped [⟨.operator, "-", Position.start⟩, ⟨.name, "x", Position.start⟩,
          ⟨.operator, "^", Position.start⟩, ⟨.number, "2", Position.start⟩]).perform
        (.expression 0 0) = .ok (.nothing, ⟨.grouped,
          [⟨.operator, "-", Position.start⟩, ⟨.name, "x", Position.start⟩,
            ⟨.operator, "^", Position.start⟩, ⟨.number, "2", Position.start⟩], [],
          Page.empty.layAll (x.layout true 0)⟩) ∧
      (Page.empty.layAll (x.layout true 0)).text = "<-<x ^ <2>>>" := by
  have hwritten : Term.Written 0 (.unary ⟨⟨.operator, "-", Position.start⟩, []⟩
      (.binary ⟨⟨.operator, "^", Position.start⟩, []⟩
        (.atom (.access (.mk (.name ⟨⟨.name, "x", Position.start⟩, []⟩) [])))
        (.atom (.literal ⟨⟨.number, "2", Position.start⟩, []⟩))))
      [⟨⟨.operator, "-", Position.start⟩, []⟩, ⟨⟨.name, "x", Position.start⟩, []⟩]
      [(⟨⟨.operator, "^", Position.start⟩, []⟩, [⟨⟨.number, "2", Position.start⟩, []⟩])] :=
    .unary (by decide) rfl (@Term.Written.binary _ Layer.power _ _ _ _ _ [] [] (by decide) rfl rfl
      (.atom ⟨rfl, nofun⟩) (.atom rfl))
  obtain ⟨⟨x, -, hterm, hperform⟩, -⟩ := perform_expression_written (t := [])
    (s := Session.start .grouped [⟨.operator, "-", Position.start⟩, ⟨.name, "x", Position.start⟩,
      ⟨.operator, "^", Position.start⟩, ⟨.number, "2", Position.start⟩])
    hwritten nofun nofun rfl rfl
  have hmarked : (((Session.start .grouped [⟨.operator, "-", Position.start⟩,
      ⟨.name, "x", Position.start⟩, ⟨.operator, "^", Position.start⟩,
      ⟨.number, "2", Position.start⟩]).perform (.expression 0 0)).toOption.map (·.2.page.text)) =
        some "<-<x ^ <2>>>" := by decide +kernel
  rw [hperform 0] at hmarked
  exact ⟨x, hterm, hperform 0, Option.some.inj hmarked⟩

end

end LuaLayout
