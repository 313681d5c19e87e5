/-
LuaLayout.Proofs.Grammar.Forms — grammars whose parts are taken greedily.

A grammar gives a form to every name. Its sentences are those of a context-free
grammar, where a repetition may stop at any time and an optional part may be left
out. A derivation is greedy: it leaves a part out only where the tokens ahead,
as many as the form looks at, begin none of the part's sentences. One token is
enough for most parts, and two where a part begins like what may come after it.

What a grammar accepts is shown by giving every name a meaning: the meanings hold
of all that is derived as soon as each holds of the form of its name.
-/
import Mathlib.Logic.Relation
import LuaLayout.Token

namespace LuaLayout

/-! ## 1. Forms -/

/-- What stands on the right of a rule. -/
inductive Form (N : Type)
  /-- One token that passes the test. -/
  | token (test : Token → Bool)
  /-- What the name stands for. -/
  | rule (name : N)
  | seq (first second : Form N)
  | either (first second : Form N)
  /-- A part any number of times, greedily. -/
  | many (depth : Nat) (part : Form N)
  /-- No token, where a part is left out greedily. -/
  | absent (depth : Nat) (part : Form N)
  /-- No token, where the next one passes the test. -/
  | ahead (test : Option Token → Bool)

namespace Form

variable {N : Type}

/-- A part or nothing, greedily. -/
def maybe (depth : Nat) (part : Form N) : Form N := either part (absent depth part)

/-- Parts one after the other. -/
def inOrder : List (Form N) → Form N
  | [] => ahead fun _ => true
  | part :: rest => seq part (inOrder rest)

/-- One of the parts. -/
def oneOf : List (Form N) → Form N
  | [] => token fun _ => false
  | part :: rest => either part (oneOf rest)

end Form

variable {N : Type} {g : N → Form N} {f a b : Form N} {s t w : List Token}

/-! ## 2. Sentences and derivations -/

/-- The sentences of a form, parts left out at will. -/
inductive Sentence (g : N → Form N) : Form N → List Token → Prop
  | token {test : Token → Bool} {x : Token} : test x = true → Sentence g (.token test) [x]
  | rule {n : N} {w : List Token} : Sentence g (g n) w → Sentence g (.rule n) w
  | seq {a b : Form N} {v w : List Token} :
      Sentence g a v → Sentence g b w → Sentence g (.seq a b) (v ++ w)
  | left {a b : Form N} {w : List Token} : Sentence g a w → Sentence g (.either a b) w
  | right {a b : Form N} {w : List Token} : Sentence g b w → Sentence g (.either a b) w
  | done {depth : Nat} {a : Form N} : Sentence g (.many depth a) []
  | more {depth : Nat} {a : Form N} {v w : List Token} :
      Sentence g a v → Sentence g (.many depth a) w → Sentence g (.many depth a) (v ++ w)
  | absent {depth : Nat} {a : Form N} : Sentence g (.absent depth a) []
  | ahead {test : Option Token → Bool} : Sentence g (.ahead test) []

/-- The tokens ahead begin a sentence of the part, as far as is looked at. -/
def Opens (g : N → Form N) (depth : Nat) (part : Form N) (s : List Token) : Prop :=
  ∃ w, Sentence g part w ∧ w.take depth <+: s

/-- The form takes tokens from the front and leaves the rest, greedily. -/
inductive Derives (g : N → Form N) : Form N → List Token → List Token → Prop
  | token {test : Token → Bool} {x : Token} {s : List Token} :
      test x = true → Derives g (.token test) (x :: s) s
  | rule {n : N} {s t : List Token} : Derives g (g n) s t → Derives g (.rule n) s t
  | seq {a b : Form N} {s m t : List Token} :
      Derives g a s m → Derives g b m t → Derives g (.seq a b) s t
  | left {a b : Form N} {s t : List Token} : Derives g a s t → Derives g (.either a b) s t
  | right {a b : Form N} {s t : List Token} : Derives g b s t → Derives g (.either a b) s t
  | done {depth : Nat} {a : Form N} {s : List Token} :
      ¬ Opens g depth a s → Derives g (.many depth a) s s
  | more {depth : Nat} {a : Form N} {s m t : List Token} :
      Derives g a s m → Derives g (.many depth a) m t → Derives g (.many depth a) s t
  | absent {depth : Nat} {a : Form N} {s : List Token} :
      ¬ Opens g depth a s → Derives g (.absent depth a) s s
  | ahead {test : Option Token → Bool} {s : List Token} :
      test s.head? = true → Derives g (.ahead test) s s

namespace Derives

/-- What is taken is a sentence. -/
theorem sentence (h : Derives g f s t) : ∃ w, s = w ++ t ∧ Sentence g f w := by
  induction h with
  | token hx => exact ⟨[_], rfl, .token hx⟩
  | rule _ ih =>
    obtain ⟨w, rfl, hw⟩ := ih
    exact ⟨w, rfl, .rule hw⟩
  | seq _ _ iha ihb =>
    obtain ⟨v, rfl, hv⟩ := iha
    obtain ⟨w, rfl, hw⟩ := ihb
    exact ⟨v ++ w, (List.append_assoc ..).symm, .seq hv hw⟩
  | left _ ih =>
    obtain ⟨w, rfl, hw⟩ := ih
    exact ⟨w, rfl, .left hw⟩
  | right _ ih =>
    obtain ⟨w, rfl, hw⟩ := ih
    exact ⟨w, rfl, .right hw⟩
  | done _ => exact ⟨[], rfl, .done⟩
  | more _ _ iha ihb =>
    obtain ⟨v, rfl, hv⟩ := iha
    obtain ⟨w, rfl, hw⟩ := ihb
    exact ⟨v ++ w, (List.append_assoc ..).symm, .more hv hw⟩
  | absent _ => exact ⟨[], rfl, .absent⟩
  | ahead _ => exact ⟨[], rfl, .ahead⟩

theorem inOrder_nil : Derives g (.inOrder []) s s := .ahead rfl

/-- The part at a place. -/
theorem oneOf_at {parts : List (Form N)} (i : Nat) (hpart : parts[i]? = some f)
    (h : Derives g f s t) : Derives g (.oneOf parts) s t := by
  induction parts generalizing i with
  | nil => cases hpart
  | cons part rest ih =>
    cases i with
    | zero =>
      obtain rfl : part = f := Option.some.inj hpart
      exact .left h
    | succ i => exact .right (ih i hpart)

/-- A part and then the others. -/
theorem inOrder_cons {rest : List (Form N)} {m : List Token} (h : Derives g a s m)
    (hrest : Derives g (.inOrder rest) m t) : Derives g (.inOrder (a :: rest)) s t := .seq h hrest

/-- One token and then the others. -/
theorem inOrder_token {test : Token → Bool} {rest : List (Form N)} {x : Token}
    (hx : test x = true) (hrest : Derives g (.inOrder rest) s t) :
    Derives g (.inOrder (.token test :: rest)) (x :: s) t := .seq (.token hx) hrest

theorem inOrder_last (h : Derives g a s t) : Derives g (.inOrder [a]) s t := .seq h inOrder_nil

/-- A repetition, round by round. -/
theorem many_of_rounds {depth : Nat} (h : Relation.ReflTransGen (Derives g a) s t)
    (hend : ¬ Opens g depth a t) : Derives g (.many depth a) s t := by
  induction h using Relation.ReflTransGen.head_induction_on with
  | refl => exact .done hend
  | head hround _ ih => exact .more hround ih

end Derives

/-! ## 3. What sentences begin with -/

namespace Form

/-- The form has an empty sentence, if at most the given names have one. -/
@[simp] def nullable (empty : N → Bool) : Form N → Bool
  | token _ => false
  | rule n => empty n
  | seq a b => a.nullable empty && b.nullable empty
  | either a b => a.nullable empty || b.nullable empty
  | many _ _ => true
  | absent _ _ => true
  | ahead _ => true

/-- A sentence of the form can begin with the token, by what the names can begin
with. -/
@[simp] def heads (empty : N → Bool) (first : N → Token → Bool) : Form N → Token → Bool
  | token test, x => test x
  | rule n, x => first n x
  | seq a b, x => a.heads empty first x || (a.nullable empty && b.heads empty first x)
  | either a b, x => a.heads empty first x || b.heads empty first x
  | many _ a, x => a.heads empty first x
  | absent _ _, _ => false
  | ahead _, _ => false

section

variable {empty : N → Bool} {first : N → Token → Bool} {rest : List (Form N)} {x : Token}

@[simp] theorem nullable_inOrder_nil : (inOrder ([] : List (Form N))).nullable empty = true := rfl

@[simp] theorem nullable_inOrder_cons : (inOrder (a :: rest)).nullable empty =
    (a.nullable empty && (inOrder rest).nullable empty) := rfl

@[simp] theorem nullable_oneOf_nil : (oneOf ([] : List (Form N))).nullable empty = false := rfl

@[simp] theorem nullable_oneOf_cons : (oneOf (a :: rest)).nullable empty =
    (a.nullable empty || (oneOf rest).nullable empty) := rfl

@[simp] theorem nullable_maybe (depth : Nat) : (maybe depth a).nullable empty = true :=
  Bool.or_true _

@[simp] theorem heads_inOrder_nil :
    (inOrder ([] : List (Form N))).heads empty first x = false := rfl

@[simp] theorem heads_inOrder_cons : (inOrder (a :: rest)).heads empty first x =
    (a.heads empty first x || (a.nullable empty && (inOrder rest).heads empty first x)) := rfl

@[simp] theorem heads_oneOf_nil : (oneOf ([] : List (Form N))).heads empty first x = false := rfl

@[simp] theorem heads_oneOf_cons : (oneOf (a :: rest)).heads empty first x =
    (a.heads empty first x || (oneOf rest).heads empty first x) := rfl

@[simp] theorem heads_maybe (depth : Nat) :
    (maybe depth a).heads empty first x = a.heads empty first x := Bool.or_false _

end

/-- A list of tokens that is empty or has a head, as the form allows. -/
def Allows (empty : N → Bool) (first : N → Token → Bool) (f : Form N) : List Token → Prop
  | [] => f.nullable empty = true
  | x :: _ => f.heads empty first x = true

section

variable {empty : N → Bool} {first : N → Token → Bool} {v : List Token}

theorem Allows.append (hv : a.Allows empty first v) (hw : b.Allows empty first w) :
    (seq a b).Allows empty first (v ++ w) := by
  cases v with
  | nil =>
    cases w with
    | nil => exact Bool.and_eq_true_iff.2 ⟨hv, hw⟩
    | cons x w => exact Bool.or_eq_true_iff.2 (.inr (Bool.and_eq_true_iff.2 ⟨hv, hw⟩))
  | cons x v => exact Bool.or_eq_true_iff.2 (.inl hv)

end

end Form

/-- What is said of the names is true of their forms. -/
structure Form.Begins (g : N → Form N) (empty : N → Bool) (first : N → Token → Bool) : Prop where
  nullable : ∀ n, (g n).nullable empty = true → empty n = true
  heads : ∀ n x, (g n).heads empty first x = true → first n x = true

namespace Form.Begins

variable {empty : N → Bool} {first : N → Token → Bool} {x : Token}

theorem of_sentence (hg : Form.Begins g empty first) (h : Sentence g f w) :
    f.Allows empty first w := by
  induction h with
  | token hx => exact hx
  | @rule n w _ ih =>
    cases w with
    | nil => exact hg.nullable n ih
    | cons x w => exact hg.heads n x ih
  | seq _ _ iha ihb => exact iha.append ihb
  | @left a b w _ ih =>
    cases w with
    | nil => exact Bool.or_eq_true_iff.2 (.inl ih)
    | cons x w => exact Bool.or_eq_true_iff.2 (.inl ih)
  | @right a b w _ ih =>
    cases w with
    | nil => exact Bool.or_eq_true_iff.2 (.inr ih)
    | cons x w => exact Bool.or_eq_true_iff.2 (.inr ih)
  | done => rfl
  | @more depth a v w _ _ iha ihb =>
    cases v with
    | nil => exact ihb
    | cons x v => exact iha
  | absent => rfl
  | ahead => rfl

/-- What is taken is empty, or it begins with a head of the form. -/
theorem of_derives (hg : Form.Begins g empty first) (h : Derives g f s t) :
    (s = t ∧ f.nullable empty = true) ∨
      ∃ x ∈ s.head?, f.heads empty first x = true := by
  obtain ⟨w, rfl, hw⟩ := h.sentence
  have hbegins := hg.of_sentence hw
  cases w with
  | nil => exact .inl ⟨rfl, hbegins⟩
  | cons x w => exact .inr ⟨x, rfl, hbegins⟩

theorem not_opens (hg : Form.Begins g empty first) (hnull : f.nullable empty = false)
    (h : ∀ x ∈ s.head?, f.heads empty first x = false) : ¬ Opens g 1 f s := by
  rintro ⟨w, hw, rest, rfl⟩
  have hbegins := hg.of_sentence hw
  cases w with
  | nil => exact absurd hbegins (by rw [Form.Allows, hnull]; decide)
  | cons x w => exact absurd hbegins (by rw [Form.Allows, h x rfl]; decide)

/-- A token and a part, by the two tokens ahead. -/
theorem not_opens_pair (hg : Form.Begins g empty first) (hone : ∀ v, Sentence g a v → ∃ x, v = [x])
    (hnull : b.nullable empty = false)
    (h : ∀ x rest, s = x :: rest → a.heads empty first x = true →
      ∀ y ∈ rest.head?, b.heads empty first y = false) :
    ¬ Opens g 2 (.inOrder [a, b]) s := by
  rintro ⟨w, hw, rest, rfl⟩
  cases hw with
  | seq ha hlater =>
    cases hlater with
    | @seq _ _ v _ hb hnil =>
      cases hnil
      obtain ⟨x, rfl⟩ := hone _ ha
      have hx : a.heads empty first x = true := hg.of_sentence ha
      have hbegins := hg.of_sentence hb
      cases v with
      | nil => exact absurd hbegins (by rw [Form.Allows, hnull]; decide)
      | cons y v => exact absurd hbegins (by rw [Form.Allows, h _ _ rfl hx y rfl]; decide)

end Form.Begins

/-! ## 4. Meanings -/

namespace Form

/-- The form as it takes tokens, with a meaning for each name. The tokens are
known to be good. -/
def Under (g : N → Form N) (good : Token → Prop) (meaning : N → List Token → List Token → Prop) :
    Form N → List Token → List Token → Prop
  | token test, s, t => ∃ x, good x ∧ test x = true ∧ s = x :: t
  | rule n, s, t => meaning n s t
  | seq a b, s, t => ∃ m, a.Under g good meaning s m ∧ b.Under g good meaning m t
  | either a b, s, t => a.Under g good meaning s t ∨ b.Under g good meaning s t
  | many depth a, s, t => Relation.ReflTransGen (a.Under g good meaning) s t ∧
      ¬ Opens g depth a t ∧ ∀ x ∈ t, good x
  | absent depth a, s, t => s = t ∧ ¬ Opens g depth a t ∧ ∀ x ∈ t, good x
  | ahead test, s, t => s = t ∧ test t.head? = true

section

variable {good : Token → Prop} {meaning : N → List Token → List Token → Prop}

@[simp] theorem under_inOrder_nil : (inOrder []).Under g good meaning s t ↔ s = t := by
  simp [inOrder, Under]

@[simp] theorem under_inOrder_cons {rest : List (Form N)} :
    (inOrder (a :: rest)).Under g good meaning s t ↔
      ∃ m, a.Under g good meaning s m ∧ (inOrder rest).Under g good meaning m t := Iff.rfl

@[simp] theorem under_oneOf_nil : (oneOf []).Under g good meaning s t ↔ False := by
  simp [oneOf, Under]

@[simp] theorem under_oneOf_cons {rest : List (Form N)} :
    (oneOf (a :: rest)).Under g good meaning s t ↔
      a.Under g good meaning s t ∨ (oneOf rest).Under g good meaning s t := Iff.rfl

end

end Form

/-- The meanings of the names hold of all that is derived from good tokens, if
each holds of what its form takes, given that they hold of its parts. -/
theorem Derives.under {good : Token → Prop} {meaning : N → List Token → List Token → Prop}
    (hstep : ∀ n s t, (∀ x ∈ s, good x) →
      (g n).Under g good (fun n s t => (∀ x ∈ s, good x) ∧ Derives g (.rule n) s t ∧ meaning n s t)
        s t → meaning n s t)
    (h : Derives g f s t) (hgood : ∀ x ∈ s, good x) :
    f.Under g good (fun n s t => (∀ x ∈ s, good x) ∧ Derives g (.rule n) s t ∧ meaning n s t)
      s t := by
  -- What a part leaves is good as well.
  have hrest : ∀ {f s t}, Derives g f s t → (∀ x ∈ s, good x) → ∀ x ∈ t, good x := by
    intro f s t h hgood x hx
    obtain ⟨w, rfl, -⟩ := h.sentence
    exact hgood x (List.mem_append_right w hx)
  induction h with
  | token hx => exact ⟨_, hgood _ (by simp), hx, rfl⟩
  | rule h ih => exact ⟨hgood, .rule h, hstep _ _ _ hgood (ih hgood)⟩
  | seq ha _ iha ihb => exact ⟨_, iha hgood, ihb (hrest ha hgood)⟩
  | left _ ih => exact .inl (ih hgood)
  | right _ ih => exact .inr (ih hgood)
  | done hend => exact ⟨.refl, hend, hgood⟩
  | more ha _ iha ihb =>
    obtain ⟨hrounds, hend⟩ := ihb (hrest ha hgood)
    exact ⟨.head (iha hgood) hrounds, hend⟩
  | absent hend => exact ⟨rfl, hend, hgood⟩
  | ahead htest => exact ⟨rfl, htest⟩

end LuaLayout
