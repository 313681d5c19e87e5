/-
LuaLayout.Proofs.Parser.Steps — when the small parsers succeed.

A parser is described by its successes: what it gives and what it leaves
ahead. Looking ahead leaves everything in place, taking a leaf removes it, and
a repetition succeeds exactly when its rounds do, one after the other, up to
one that gives nothing. The bound on the number of rounds plays no part as long
as every round that gives something takes a leaf; so what a round reads exactly
is all that has to be known to read a list exactly.
-/
import LuaLayout.Parser.Basic

namespace LuaLayout.Parser

variable {α β : Type} {s t u : List Leaf}

/-! ## 1. Looking ahead -/

theorem pure_eq_ok_iff {a b : α} : (pure a : Parser α) s = .ok (b, t) ↔ a = b ∧ s = t := by
  change Except.ok (a, s) = .ok (b, t) ↔ _
  simp

theorem map_eq_ok_iff {f : α → β} {p : Parser α} {b : β} :
    (f <$> p) s = .ok (b, t) ↔ ∃ a, p s = .ok (a, t) ∧ f a = b := by
  rw [map_eq_pure_bind, bind_eq_ok_iff]
  simp only [pure_eq_ok_iff]
  exact ⟨fun ⟨a, u, h, hb, hu⟩ => ⟨a, hu ▸ h, hb⟩, fun ⟨a, h, hb⟩ => ⟨a, t, h, hb, rfl⟩⟩

theorem get_bind (q : List Leaf → Parser β) : (get >>= q) s = q s s := rfl

theorem current_bind (q : Option Token → Parser β) : (current >>= q) s = q (tokenAt 0 s) s := rfl

theorem sees_bind (text : String) (q : Bool → Parser β) :
    (sees text >>= q) s = q (hasTextAt 0 text s) s := rfl

theorem seesSecond_bind (text : String) (q : Bool → Parser β) :
    (seesSecond text >>= q) s = q (hasTextAt 1 text s) s := rfl

theorem currentIs_bind (test : Token → Bool) (q : Bool → Parser β) :
    (currentIs test >>= q) s = q ((tokenAt 0 s).any test) s := rfl

/-- Running a choice is choosing what to run. -/
theorem ite_apply (c : Prop) [Decidable c] (p q : Parser α) :
    (if c then p else q) s = if c then p s else q s := by
  split <;> rfl

@[simp] theorem tokenAt_zero_cons (l : Leaf) (s : List Leaf) :
    tokenAt 0 (l :: s) = some l.token := rfl

@[simp] theorem tokenAt_zero_nil : tokenAt 0 [] = none := rfl

theorem tokenAt_one_cons (l : Leaf) (s : List Leaf) : tokenAt 1 (l :: s) = tokenAt 0 s := rfl

@[simp] theorem hasTextAt_zero_cons (text : String) (l : Leaf) (s : List Leaf) :
    hasTextAt 0 text (l :: s) = (l.token.text == text) := rfl

@[simp] theorem hasTextAt_zero_nil (text : String) : hasTextAt 0 text [] = false := rfl

theorem hasTextAt_one_cons (text : String) (l : Leaf) (s : List Leaf) :
    hasTextAt 1 text (l :: s) = hasTextAt 0 text s := rfl

/-- The next token lacks the text. -/
theorem hasTextAt_eq_false_iff {text : String} :
    hasTextAt 0 text s = false ↔ ∀ x ∈ tokenAt 0 s, x.text ≠ text := by
  cases s <;> simp

/-! ## 2. Failing -/

theorem fail_ne_ok {what : Complaint} {x : α × List Leaf} : ¬ fail what s = .ok x := by
  intro h; cases h

theorem failNear_ne_ok {what : Complaint} {near : Option Token} {x : α × List Leaf} :
    ¬ failNear what near s = .ok x := by
  intro h; cases h

theorem refuse_ne_ok {cause : Refusal} {x : α × List Leaf} : ¬ refuse cause s = .ok x := by
  intro h; cases h

/-! ## 3. Choosing -/

/-- A leaf is taken whatever it is, and the parser goes on behind it. -/
theorem nextThen_eq_ok_iff {p : Parser α} {l : Leaf} {a : α} :
    nextThen p s = .ok ((l, a), t) ↔ ∃ u, s = l :: u ∧ p u = .ok (a, t) := by
  simp only [nextThen, bind_eq_ok_iff, next_eq_ok_iff, pure_eq_ok_iff, Prod.mk.injEq]
  constructor
  · rintro ⟨l', u, rfl, a', v, h, ⟨rfl, rfl⟩, rfl⟩
    exact ⟨u, rfl, h⟩
  · rintro ⟨u, rfl, h⟩
    exact ⟨l, u, rfl, a, t, h, ⟨rfl, rfl⟩, rfl⟩

/-- Nothing is given, and nothing taken, exactly where the text does not stand. -/
theorem ifSees_eq_none_iff {text : String} {p : Parser α} :
    ifSees text p s = .ok (none, t) ↔ s = t ∧ ∀ x ∈ tokenAt 0 s, x.text ≠ text := by
  rw [ifSees, sees_bind, ite_apply, ← hasTextAt_eq_false_iff]
  split
  · next h => simp [map_eq_ok_iff, h]
  · next h => simp [pure_eq_ok_iff, h]

/-- Where the text stands the parser is run, and begins with that leaf. -/
theorem ifSees_eq_some_iff {text : String} {p : Parser α} {a : α} :
    ifSees text p s = .ok (some a, t) ↔
      (∃ x ∈ tokenAt 0 s, x.text = text) ∧ p s = .ok (a, t) := by
  have hiff : hasTextAt 0 text s = true ↔ ∃ x ∈ tokenAt 0 s, x.text = text := by
    cases s <;> simp
  rw [ifSees, sees_bind, ite_apply, ← hiff]
  split
  · next h => simp [map_eq_ok_iff, h]
  · next h => simp [pure_eq_ok_iff, h]

/-! ## 4. Repeating -/

/-- Rounds of a step, one after the other, up to one that gives nothing. -/
def Rounds (step : Parser (Option α)) : List α → List Leaf → List Leaf → Prop
  | [], s, t => step s = .ok (none, t)
  | a :: rest, s, t => ∃ u, step s = .ok (some a, u) ∧ Rounds step rest u t

/-- Every round that gives something leaves fewer leaves ahead, of lists that
are no longer than the given one. -/
def Progresses (step : Parser (Option α)) (length : Nat) : Prop :=
  ∀ s a t, s.length ≤ length → step s = .ok (some a, t) → t.length < s.length

/-- The bound is not felt: it is no shorter than the leaves ahead, of which each round takes
one. -/
theorem manyAlong_eq_ok_iff {step : Parser (Option α)} {bound s t : List Leaf} {as : List α}
    (hstep : Progresses step s.length) (hbound : s.length ≤ bound.length) :
    manyAlong bound step s = .ok (as, t) ↔ Rounds step as s t := by
  induction bound generalizing s as with
  | nil =>
    have hs : s = [] := List.eq_nil_of_length_eq_zero (Nat.le_zero.1 hbound)
    subst hs
    simp only [manyAlong, bind_eq_ok_iff]
    constructor
    · rintro ⟨x, u, hx, h⟩
      cases x with
      | none =>
        obtain ⟨rfl, rfl⟩ := pure_eq_ok_iff.1 h
        exact hx
      | some a => exact absurd h refuse_ne_ok
    · intro h
      cases as with
      | nil => exact ⟨none, t, h, rfl⟩
      | cons a rest =>
        obtain ⟨u, hu, -⟩ := h
        exact absurd (hstep [] a u (Nat.le_refl _) hu) (Nat.not_lt_zero _)
  | cons l bound ih =>
    simp only [manyAlong, bind_eq_ok_iff]
    constructor
    · rintro ⟨x, u, hx, h⟩
      cases x with
      | none =>
        obtain ⟨rfl, rfl⟩ := pure_eq_ok_iff.1 h
        exact hx
      | some a =>
        obtain ⟨rest, v, hrest, hv⟩ := bind_eq_ok_iff.1 h
        obtain ⟨rfl, rfl⟩ := pure_eq_ok_iff.1 hv
        have hlt := hstep s a u (Nat.le_refl _) hx
        refine ⟨u, hx, (ih (fun s' a' t' hs' => hstep s' a' t' (by omega)) ?_).1 hrest⟩
        simp only [List.length_cons] at hbound
        omega
    · intro h
      cases as with
      | nil => exact ⟨none, t, h, rfl⟩
      | cons a rest =>
        obtain ⟨u, hu, hrest⟩ := h
        have hlt := hstep s a u (Nat.le_refl _) hu
        refine ⟨some a, u, hu, bind_eq_ok_iff.2 ⟨rest, t, ?_, rfl⟩⟩
        refine (ih (fun s' a' t' hs' => hstep s' a' t' (by omega)) ?_).2 hrest
        simp only [List.length_cons] at hbound
        omega

/-- A repetition succeeds with the rounds of its step. -/
theorem many_eq_ok_iff {step : Parser (Option α)} {as : List α}
    (hstep : Progresses step s.length) :
    many step s = .ok (as, t) ↔ Rounds step as s t := by
  rw [many, get_bind]
  exact manyAlong_eq_ok_iff hstep (Nat.le_refl _)

/-- A repetition reads lists exactly where its step reads items exactly. The leaves
of a list are those of its items in a row; a list fits where each item is good before
what comes after it, and an end comes after the last one. -/
theorem many_eq_ok_iff_of_items {step : Parser (Option α)} {length : Nat} {as : List α}
    (leaves : α → List Leaf) (good : α → List Leaf → Prop) (ends : List Leaf → Prop)
    (all : List α → List Leaf) (fits : List Leaf → List α → Prop)
    (hsome : ∀ s a t, s.length ≤ length →
      (step s = .ok (some a, t) ↔ s = leaves a ++ t ∧ good a t))
    (hnone : ∀ s t, step s = .ok (none, t) ↔ s = t ∧ ends s)
    (hleaves : ∀ a, leaves a ≠ [])
    (hnil : all [] = []) (hcons : ∀ a rest, all (a :: rest) = leaves a ++ all rest)
    (hends : ∀ t, fits t [] ↔ ends t)
    (hgood : ∀ t a rest, fits t (a :: rest) ↔ good a (all rest ++ t) ∧ fits t rest)
    (hs : s.length ≤ length) :
    many step s = .ok (as, t) ↔ s = all as ++ t ∧ fits t as := by
  have hprogress : Progresses step s.length := by
    intro s' a u hs' h
    obtain ⟨rfl, -⟩ := (hsome _ _ _ (by omega)).1 h
    have hpos := List.length_pos_iff.2 (hleaves a)
    simp only [List.length_append]
    omega
  rw [many_eq_ok_iff hprogress]
  clear hprogress
  induction as generalizing s with
  | nil =>
    rw [Rounds, hnone, hnil, hends, List.nil_append]
    exact and_congr_right fun h => by rw [h]
  | cons a rest ih =>
    simp only [Rounds, hcons, hgood]
    constructor
    · rintro ⟨u, hu, hrest⟩
      obtain ⟨rfl, ha⟩ := (hsome _ _ _ hs).1 hu
      simp only [List.length_append] at hs
      obtain ⟨rfl, hfit⟩ := (ih (by omega)).1 hrest
      exact ⟨by simp, ha, hfit⟩
    · rintro ⟨rfl, ha, hfit⟩
      rw [List.append_assoc] at hs ⊢
      refine ⟨_, (hsome _ _ _ hs).2 ⟨rfl, ha⟩, (ih ?_).2 ⟨rfl, hfit⟩⟩
      rw [List.length_append] at hs
      omega

end LuaLayout.Parser
