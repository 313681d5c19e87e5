/-
LuaLayout.Parser.Basic — reading leaves one after another.

A parser takes leaves off the front of those ahead, or fails with a complaint
near the leaf where it stands. Comments are parts of leaves, so no parser ever
meets one. Tests for a bracket, separator or word look at the text of a token
alone, whatever its kind.
-/
import LuaLayout.Fault
import LuaLayout.Tree

namespace LuaLayout

/-- Why a parser stops. -/
inductive Failure
  /-- A complaint near a token, or near the end of the input. -/
  | complaint (what : Complaint) (near : Option Token)
  | refused (cause : Refusal)
  deriving DecidableEq, Repr

/-- A reader of leaves. -/
abbrev Parser := StateT (List Leaf) (Except Failure)

namespace Parser

/-- A sequence succeeds where both parts do, one after the other. -/
theorem bind_eq_ok_iff {α β : Type} {p : Parser α} {q : α → Parser β} {s u : List Leaf} {b : β} :
    (p >>= q) s = .ok (b, u) ↔ ∃ a t, p s = .ok (a, t) ∧ q a t = .ok (b, u) := by
  change (p s >>= fun x => q x.1 x.2) = .ok (b, u) ↔ _
  cases p s with
  | error e => simp [bind, Except.bind]
  | ok x => exact ⟨fun h => ⟨x.1, x.2, rfl, h⟩, fun ⟨_, _, hx, h⟩ => by cases hx; exact h⟩

/-! ## 1. Looking ahead -/

/-- The token a number of leaves ahead. -/
def tokenAt (offset : Nat) (ahead : List Leaf) : Option Token := (ahead[offset]?).map (·.token)

/-- The token that is read next. -/
def current : Parser (Option Token) := do return tokenAt 0 (← get)

/-- The token a number of leaves ahead has the given text. -/
def hasTextAt (offset : Nat) (text : String) (ahead : List Leaf) : Bool :=
  (tokenAt offset ahead).any (·.text == text)

/-- The next token has the given text. -/
def sees (text : String) : Parser Bool := do return hasTextAt 0 text (← get)

/-- The token after the next one has the given text. -/
def seesSecond (text : String) : Parser Bool := do return hasTextAt 1 text (← get)

/-- The next token passes the test. -/
def currentIs (test : Token → Bool) : Parser Bool := do return (← current).any test

/-! ## 2. Failing -/

/-- Stops with a complaint near a token or the end of the input. -/
def failNear {α : Type} (what : Complaint) (near : Option Token) : Parser α :=
  throw (.complaint what near)

/-- Stops with a complaint near the next token. -/
def fail {α : Type} (what : Complaint) : Parser α := do failNear what (← current)

/-- Stops without a complaint about the text. -/
def refuse {α : Type} (cause : Refusal) : Parser α := throw (.refused cause)

/-! ## 3. Taking leaves -/

/-- Takes the next leaf, whatever it is. -/
def next : Parser Leaf := do
  match ← get with
  | [] => fail .unexpectedEnd
  | leaf :: rest =>
    set rest
    return leaf

theorem next_eq_ok_iff {s t : List Leaf} {l : Leaf} : next s = .ok (l, t) ↔ s = l :: t := by
  cases s with
  | nil => exact ⟨fun h => (by cases h), fun h => (by cases h)⟩
  | cons m u =>
    change Except.ok (m, u) = .ok (l, t) ↔ _
    simp

/-- Takes the next leaf, which must have the given text. -/
def expect (text : String) : Parser Leaf := do
  if ← sees text then next else fail (.expected text)

theorem expect_eq_ok_iff {text : String} {s t : List Leaf} {l : Leaf} :
    expect text s = .ok (l, t) ↔ s = l :: t ∧ l.token.text = text := by
  cases s with
  | nil => exact ⟨fun h => (by cases h), fun h => (by cases h.1)⟩
  | cons m u =>
    change (if hasTextAt 0 text (m :: u) then next else fail (.expected text)) (m :: u) = .ok (l, t)
      ↔ _
    by_cases h : m.token.text = text
    · have hs : hasTextAt 0 text (m :: u) = true := by simp [hasTextAt, tokenAt, h]
      rw [if_pos hs, next_eq_ok_iff]
      exact ⟨fun heq => ⟨heq, by cases heq; exact h⟩, fun heq => heq.1⟩
    · have hs : ¬ hasTextAt 0 text (m :: u) = true := by simp [hasTextAt, tokenAt, h]
      rw [if_neg hs]
      exact ⟨fun heq => (by cases heq), fun heq => (by cases heq.1; exact absurd heq.2 h)⟩

/-- Takes the next leaf, which must be a name. -/
def expectName : Parser Leaf := do
  if ← currentIs (·.kind == .name) then next else fail .expectedName

theorem expectName_eq_ok_iff {s t : List Leaf} {l : Leaf} :
    expectName s = .ok (l, t) ↔ s = l :: t ∧ l.token.kind = .name := by
  cases s with
  | nil => exact ⟨fun h => (by cases h), fun h => (by cases h.1)⟩
  | cons m u =>
    change (if m.token.kind == .name then next else fail .expectedName) (m :: u) = .ok (l, t) ↔ _
    by_cases h : m.token.kind = .name
    · rw [if_pos (beq_iff_eq.2 h), next_eq_ok_iff]
      exact ⟨fun heq => ⟨heq, by cases heq; exact h⟩, fun heq => heq.1⟩
    · rw [if_neg (by simpa using h)]
      exact ⟨fun heq => (by cases heq), fun heq => (by cases heq.1; exact absurd heq.2 h)⟩

/-! ## 4. Repeating and choosing -/

/-- Repeats a step until it has nothing more to give; it may give something at
most once for each leaf of a list. -/
def manyAlong {α : Type} : List Leaf → Parser (Option α) → Parser (List α)
  | [], step => do
    match ← step with
    | none => return []
    | some _ => refuse .tooDeep
  | _ :: bound, step => do
    match ← step with
    | none => return []
    | some a => return a :: (← manyAlong bound step)

/-- Repeats a step until it has nothing more to give. A step that gives
something takes a leaf, so the leaves ahead bound the repetition. -/
def many {α : Type} (step : Parser (Option α)) : Parser (List α) := do
  manyAlong (← get) step

/-- Runs a parser if the next token has the given text. -/
def ifSees {α : Type} (text : String) (p : Parser α) : Parser (Option α) := do
  if ← sees text then some <$> p else return none

/-- The next leaf and what is read after it. -/
def nextThen {α : Type} (p : Parser α) : Parser (Leaf × α) := do
  let leaf ← next
  return (leaf, ← p)

/-- Further items, each after a separator of the given text. -/
def moreAfter {α : Type} (separator : String) (item : Parser α) : Parser (List (Leaf × α)) :=
  many (ifSees separator (nextThen item))

end Parser

end LuaLayout
