/-
LuaLayout.Proofs.Parser.InStep — two readings of alike leaves, side by side.

Nothing in a parser looks at more of a token than its kind and its text. So on
leaves whose tokens have the same kinds and texts two readings go in step: they
both succeed and leave alike leaves ahead, or they both stop with the same
complaint, near tokens that correspond. The tokens may correspond by any
relation that keeps kinds and texts; with equality it says which tokens a
complaint can name. A refusal is no outcome in step, so none is ever met.

`InStep` also counts: how many leaves there may be ahead, and how many are taken
at least. Every rule that is used again stands behind a leaf that was taken, and
every round of a repetition takes one, which is why the bounds on nesting and on
rounds are never reached.
-/
import Mathlib.Data.List.Forall2
import LuaLayout.Parser.Statement
import LuaLayout.Proofs.Parser.Steps

namespace LuaLayout

/-- Corresponding tokens have the same kind and text. -/
structure Token.Faithful (R : Token → Token → Prop) : Prop where
  kind : ∀ {t u}, R t u → t.kind = u.kind
  text : ∀ {t u}, R t u → t.text = u.text

/-- The tokens of leaves correspond, one by one. -/
abbrev Leaf.Correspond (R : Token → Token → Prop) : List Leaf → List Leaf → Prop :=
  List.Forall₂ fun l m => R l.token m.token

namespace Parser

/-! ## 1. Outcomes and parsers in step -/

/-- Both outcomes are successes that the condition holds of, or the same
complaint near tokens that correspond. -/
inductive Agree (R : Token → Token → Prop) {α : Type}
    (Q : α → α → List Leaf → List Leaf → Prop) :
    Except Failure (α × List Leaf) → Except Failure (α × List Leaf) → Prop
  | ok {a b : α} {s t : List Leaf} : Q a b s t → Agree R Q (.ok (a, s)) (.ok (b, t))
  | complaint {what : Complaint} {near near' : Option Token} : Option.Rel R near near' →
    Agree R Q (.error (.complaint what near)) (.error (.complaint what near'))

/-- On corresponding leaves, fewer than the bound, the parsers agree: their
values are related, and each leaves what the other leaves, after taking so many
leaves as its value tells. -/
def InStep (R : Token → Token → Prop) {α : Type} (bound : Nat) (taken : α → Nat)
    (V : α → α → Prop) (p q : Parser α) : Prop :=
  ∀ s t, Leaf.Correspond R s t → s.length < bound →
    Agree R (fun a b s' t' => V a b ∧ Leaf.Correspond R s' t' ∧ s'.length + taken a ≤ s.length)
      (p s) (q t)

/-- The values may be anything. -/
def Free {α : Type} (_ _ : α) : Prop := True

/-- The parser is in step with itself. -/
abbrev Even (R : Token → Token → Prop) {α : Type} (bound : Nat) (p : Parser α) : Prop :=
  InStep R bound (fun _ => 0) Free p p

/-- The parser is in step with itself and takes a leaf. -/
abbrev Takes (R : Token → Token → Prop) {α : Type} (bound : Nat) (p : Parser α) : Prop :=
  InStep R bound (fun _ => 1) Free p p

/-- Something is given for a leaf. -/
def given {α : Type} : Option α → Nat
  | none => 0
  | some _ => 1

theorem given_le {α : Type} (x : Option α) : given x ≤ 1 := by
  cases x with
  | none => exact Nat.zero_le 1
  | some _ => exact Nat.le_refl 1

section

variable {R : Token → Token → Prop} {α β : Type} {n : Nat} {taken : α → Nat} {more : β → Nat}
  {V : α → α → Prop} {W : β → β → Prop} {p q : Parser α} {f g : α → Parser β}
  {s t : List Leaf}

theorem Agree.imp {Q Q' : α → α → List Leaf → List Leaf → Prop} (hp : Agree R Q (p s) (q t))
    (h : ∀ a b s' t', Q a b s' t' → Q' a b s' t') : Agree R Q' (p s) (q t) := by
  generalize p s = x at hp ⊢
  generalize q t = y at hp ⊢
  cases hp with
  | ok hok => exact .ok (h _ _ _ _ hok)
  | complaint hnear => exact .complaint hnear

theorem Agree.bind {Q : α → α → List Leaf → List Leaf → Prop}
    {Q' : β → β → List Leaf → List Leaf → Prop} (hp : Agree R Q (p s) (q t))
    (hf : ∀ a b s' t', Q a b s' t' → Agree R Q' (f a s') (g b t')) :
    Agree R Q' ((p >>= f) s) ((q >>= g) t) := by
  change Agree R Q' (p s >>= fun x => f x.1 x.2) (q t >>= fun x => g x.1 x.2)
  generalize p s = x at hp
  generalize q t = y at hp
  cases hp with
  | ok hok => exact hf _ _ _ _ hok
  | complaint hnear => exact .complaint hnear

theorem Agree.ite {Q : α → α → List Leaf → List Leaf → Prop} {b c : Bool} {p' q' : Parser α}
    (hbc : b = c) (hp : Agree R Q (p s) (q t)) (hq : Agree R Q (p' s) (q' t)) :
    Agree R Q ((if b then p else p') s) ((if c then q else q') t) := by
  subst hbc
  cases b with
  | true => exact hp
  | false => exact hq

namespace InStep

theorem mono (h : InStep R n taken V p q) {m : Nat} (hm : m ≤ n) : InStep R m taken V p q :=
  fun s t hst hlen => h s t hst (Nat.lt_of_lt_of_le hlen hm)

/-- Less is said of the values and of what is taken. -/
theorem imp (h : InStep R n taken V p q) {V' : α → α → Prop} {k : α → Nat}
    (hV : ∀ a b, V a b → V' a b) (hk : ∀ a, k a ≤ taken a) : InStep R n k V' p q := by
  intro s t hst hlen
  refine (h s t hst hlen).imp fun a b s' t' ⟨hab, hst', hle⟩ => ⟨hV a b hab, hst', ?_⟩
  have hka := hk a
  omega

/-- Nothing is said of the values and of what is taken. -/
theorem forget (h : InStep R n taken V p q) : InStep R n (fun _ => 0) Free p q :=
  h.imp (fun _ _ _ => trivial) fun _ => Nat.zero_le _

/-- A parser that may take nothing, and what comes after it. -/
theorem bind (hp : InStep R n (fun _ => 0) V p q)
    (hf : ∀ a b, V a b → InStep R n more W (f a) (g b)) : InStep R n more W (p >>= f) (q >>= g) := by
  intro s t hst hlen
  refine (hp s t hst hlen).bind fun a b s' t' ⟨hab, hst', hle⟩ => ?_
  simp only [Nat.add_zero] at hle
  refine (hf a b hab s' t' hst' (by omega)).imp fun x y u v ⟨hxy, huv, hlater⟩ => ⟨hxy, huv, ?_⟩
  omega

/-- A parser that takes a leaf leaves fewer for what comes after it. -/
theorem thenBind (hp : InStep R (n + 1) (fun _ => 1) V p q)
    (hf : ∀ a b, V a b → InStep R n (fun _ => 0) W (f a) (g b)) :
    InStep R (n + 1) (fun _ => 1) W (p >>= f) (q >>= g) := by
  intro s t hst hlen
  refine (hp s t hst hlen).bind fun a b s' t' ⟨hab, hst', hle⟩ => ?_
  simp only at hle
  refine (hf a b hab s' t' hst' (by omega)).imp fun x y u v ⟨hxy, huv, hlater⟩ => ⟨hxy, huv, ?_⟩
  simp only [Nat.add_zero] at hlater ⊢
  omega

/-- A step that begins with a parser that takes a leaf. -/
theorem thenGive {f g : α → Parser (Option β)} {W : Option β → Option β → Prop}
    (hp : InStep R (n + 1) (fun _ => 1) V p q)
    (hf : ∀ a b, V a b → InStep R n (fun _ => 0) W (f a) (g b)) :
    InStep R (n + 1) given W (p >>= f) (q >>= g) :=
  (hp.thenBind hf).imp (fun _ _ hab => hab) given_le

theorem pure {a b : α} (h : V a b) : InStep R n (fun _ => 0) V (pure a) (pure b) :=
  fun _ _ hst _ => .ok ⟨h, hst, Nat.le_refl _⟩

/-- A choice by tests that come out the same. -/
theorem ite {b c : Bool} {p' q' : Parser α} (hbc : b = c) (hp : InStep R n taken V p q)
    (hq : InStep R n taken V p' q') :
    InStep R n taken V (if b then p else p') (if c then q else q') :=
  fun s t hst hlen => .ite hbc (hp s t hst hlen) (hq s t hst hlen)

end InStep

/-! ## 2. Looking ahead and failing -/

theorem correspond_tokenAt (hst : Leaf.Correspond R s t) (offset : Nat) :
    Option.Rel R (tokenAt offset s) (tokenAt offset t) := by
  induction hst generalizing offset with
  | nil => exact .none
  | cons hlm _ ih =>
    cases offset with
    | zero => exact .some hlm
    | succ offset => simpa [tokenAt] using ih offset

/-- A function of kinds and texts has the same value. -/
theorem eq_of_rel {γ : Type} {x y : Option Token} (hxy : Option.Rel R x y) {h : Option Token → γ}
    (hsome : ∀ t u, R t u → h (some t) = h (some u)) : h x = h y := by
  cases hxy with
  | none => rfl
  | some htu => exact hsome _ _ htu

theorem hasTextAt_eq (hR : Token.Faithful R) (hst : Leaf.Correspond R s t) (offset : Nat)
    (text : String) : hasTextAt offset text s = hasTextAt offset text t :=
  eq_of_rel (h := Option.any fun v : Token => v.text == text) (correspond_tokenAt hst offset)
    fun t u htu => by simp [hR.text htu]

namespace InStep

theorem get : InStep R n (fun _ => 0) (Leaf.Correspond R) get get :=
  fun _ _ hst _ => .ok ⟨hst, hst, Nat.le_refl _⟩

theorem current : InStep R n (fun _ => 0) (Option.Rel R) current current :=
  fun _ _ hst _ => .ok ⟨correspond_tokenAt hst 0, hst, Nat.le_refl _⟩

/-- A look at a token that is there. -/
theorem ahead (given : β → Nat) {f g : Option Token → Parser β} {l m : Leaf}
    (hlm : R l.token m.token) (h : InStep R n given W (f (some l.token)) (g (some m.token)))
    (hst : Leaf.Correspond R s t) (hlen : (l :: s).length < n) :
    Agree R (fun a b s' t' => W a b ∧ Leaf.Correspond R s' t' ∧ s'.length + given a ≤ (l :: s).length)
      ((Parser.current >>= f) (l :: s)) ((Parser.current >>= g) (m :: t)) :=
  h _ _ (.cons hlm hst) hlen

theorem currentIs {test : Token → Bool} (htest : ∀ t u, R t u → test t = test u) :
    InStep R n (fun _ => 0) Eq (currentIs test) (currentIs test) :=
  current.bind fun _ _ hxy => pure (eq_of_rel hxy htest)

theorem sees (hR : Token.Faithful R) (text : String) :
    InStep R n (fun _ => 0) Eq (sees text) (sees text) :=
  get.bind fun _ _ hst => pure (hasTextAt_eq hR hst 0 text)

theorem seesSecond (hR : Token.Faithful R) (text : String) :
    InStep R n (fun _ => 0) Eq (seesSecond text) (seesSecond text) :=
  get.bind fun _ _ hst => pure (hasTextAt_eq hR hst 1 text)

theorem failNear {what : Complaint} {near near' : Option Token} (h : Option.Rel R near near') :
    InStep R n taken V (failNear what near) (failNear what near') :=
  fun _ _ _ _ => .complaint h

theorem fail {what : Complaint} : InStep R n taken V (fail what) (fail what) :=
  current.bind fun _ _ hxy => failNear hxy

/-! ## 3. Taking leaves and repeating -/

theorem next : InStep R n (fun _ => 1) (fun l m => R l.token m.token) next next := by
  intro s t hst hlen
  cases hst with
  | nil => exact .complaint .none
  | cons hlm hrest => exact .ok ⟨hlm, hrest, Nat.le_refl _⟩

theorem takes_next : Takes R n Parser.next :=
  next.imp (fun _ _ _ => trivial) fun _ => Nat.le_refl _

theorem expect (hR : Token.Faithful R) (text : String) : Takes R n (expect text) :=
  (sees hR text).bind fun _ _ hbc => ite hbc takes_next fail

theorem expectName (hR : Token.Faithful R) : Takes R n expectName :=
  (currentIs fun t u htu => by rw [hR.kind htu]).bind fun _ _ hbc => ite hbc takes_next fail

/-- A step that gives nothing. -/
theorem stop : InStep R n given (Option.Rel V) (Pure.pure none) (Pure.pure none) :=
  fun _ _ hst _ => .ok ⟨.none, hst, Nat.le_refl _⟩

/-- A step that gives what was read. -/
theorem go (hp : InStep R n (fun _ => 1) V p q) :
    InStep R n given (Option.Rel V) (some <$> p) (some <$> q) := by
  intro s t hst hlen
  rw [map_eq_pure_bind, map_eq_pure_bind]
  exact (hp s t hst hlen).bind fun a b s' t' ⟨hab, hst', hle⟩ => .ok ⟨.some hab, hst', hle⟩

theorem ifSees (hR : Token.Faithful R) {text : String} (hp : InStep R n (fun _ => 1) V p q) :
    InStep R n given (Option.Rel V) (ifSees text p) (ifSees text q) :=
  (sees hR text).bind fun _ _ hbc => ite hbc (go hp) stop

theorem nextThen (hp : Even R n p) : Takes R (n + 1) (nextThen p) :=
  next.thenBind fun _ _ _ => hp.bind fun _ _ _ => pure trivial

/-- Bounds of one length let a step go on alike; it gives nothing more often than
there are leaves. -/
theorem agree_manyAlong {step step' : Parser (Option α)}
    (hstep : InStep R n given (Option.Rel V) step step') {bound bound' : List Leaf}
    (hbounds : bound.length = bound'.length) (hst : Leaf.Correspond R s t) (hlen : s.length < n)
    (hle : s.length ≤ bound.length) :
    Agree R (fun as bs s' t' => List.Forall₂ V as bs ∧ Leaf.Correspond R s' t' ∧
        s'.length ≤ s.length)
      (manyAlong bound step s) (manyAlong bound' step' t) := by
  induction bound generalizing bound' s t with
  | nil =>
    obtain rfl := List.eq_nil_of_length_eq_zero hbounds.symm
    refine (hstep s t hst hlen).bind fun x y s' t' ⟨hxy, hst', htaken⟩ => ?_
    cases hxy with
    | none => exact .ok ⟨.nil, hst', htaken⟩
    | some _ =>
      simp only [given, List.length_nil] at htaken hle
      omega
  | cons l bound ih =>
    obtain ⟨m, bound', rfl⟩ : ∃ m more, bound' = m :: more :=
      List.exists_cons_of_length_pos (by rw [← hbounds]; simp)
    refine (hstep s t hst hlen).bind fun x y s' t' ⟨hxy, hst', htaken⟩ => ?_
    cases hxy with
    | none => exact .ok ⟨.nil, hst', htaken⟩
    | some hab =>
      simp only [given, List.length_cons] at htaken hle hbounds
      refine (ih (by omega) hst' (by omega) (by omega)).bind fun as bs u v ⟨habs, huv, hlater⟩ => ?_
      exact .ok ⟨.cons hab habs, huv, by omega⟩

theorem many {step step' : Parser (Option α)} (hstep : InStep R n given (Option.Rel V) step step') :
    InStep R n (fun _ => 0) (List.Forall₂ V) (many step) (many step') :=
  fun _ _ hst hlen => agree_manyAlong hstep hst.length_eq hst hlen (Nat.le_refl _)

theorem moreAfter (hR : Token.Faithful R) {separator : String} (hp : Even R n p) :
    Even R (n + 1) (moreAfter separator p) :=
  (many (ifSees hR (nextThen hp))).forget

end InStep

end

end Parser

end LuaLayout
