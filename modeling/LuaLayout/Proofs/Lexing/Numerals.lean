/-
LuaLayout.Proofs.Lexing.Numerals — the shape of numbers and where they end.

A mantissa, and a mantissa with an exponent, are described by the characters
they are made of. Whatever the reader takes has this shape, and the reader takes
just that shape where a character follows that cannot go on with a number. The
second half needs no memory of what followed the number before, which is what
lets a number be written in another place.
-/
import LuaLayout.Lexeme.Classes

namespace LuaLayout.Lexeme

open Text

/-! ## 1. Runs -/

/-- No run begins before a character that is not of its set, nor at the end. -/
theorem run_nil {p : Char → Bool} {r : List Char} (hr : ∀ c ∈ r.head?, p c = false) :
    run p r = ([], r) := by
  cases r with
  | nil => rfl
  | cons c r => simp [run, hr c rfl]

/-- A run ends before a character that is not of its set, or at the end. -/
theorem run_stop {p : Char → Bool} {b r : List Char} (hb : ∀ x ∈ b, p x = true)
    (hr : ∀ c ∈ r.head?, p c = false) : run p (b ++ r) = (b, r) := by
  have hnil := run_nil hr
  simp only [run, Prod.mk.injEq] at hnil
  rw [run, List.takeWhile_append_of_pos hb, List.dropWhile_append_of_pos hb, hnil.1, hnil.2,
    List.append_nil]

theorem run?_stop {p : Char → Bool} {b r : List Char} (hne : b ≠ []) (hb : ∀ x ∈ b, p x = true)
    (hr : ∀ c ∈ r.head?, p c = false) : run? p (b ++ r) = some (b, r) := by
  have hrun := run_stop hb hr
  have htake : (b ++ r).takeWhile p = b := congrArg Prod.fst hrun
  rw [run?, hrun, htake, if_neg (by simpa using hne)]

theorem run?_eq_none {p : Char → Bool} {r : List Char} (hr : ∀ c ∈ r.head?, p c = false) :
    run? p r = none := by
  have htake : r.takeWhile p = [] := congrArg Prod.fst (run_nil hr)
  rw [run?, htake]
  rfl

/-- What a run takes is of its set. -/
theorem mem_of_run {p : Char → Bool} {text b r : List Char} (h : run p text = (b, r)) :
    ∀ x ∈ b, p x = true := by
  intro x hx
  cases h
  exact List.all_eq_true.1 List.all_takeWhile x hx

theorem mem_of_run? {p : Char → Bool} {text b r : List Char} (h : run? p text = some (b, r)) :
    b ≠ [] ∧ ∀ x ∈ b, p x = true := by
  refine ⟨(run?_of h).1, ?_⟩
  unfold run? at h
  split at h
  · cases h
  · exact mem_of_run (Option.some.inj h)

/-! ## 2. Mantissas -/

/-- Digits with at most one point, and at least one digit beside it. -/
inductive IsMantissa (isDigit : Char → Bool) : List Char → Prop
  | whole (w : List Char) : w ≠ [] → (∀ x ∈ w, isDigit x = true) → IsMantissa isDigit w
  | pointed (w f : List Char) : (∀ x ∈ w, isDigit x = true) → (∀ x ∈ f, isDigit x = true) →
      (w ≠ [] ∨ f ≠ []) → IsMantissa isDigit (w ++ '.' :: f)

theorem isMantissa_of {isDigit : Char → Bool} {text m r : List Char}
    (h : mantissa? isDigit text = some (m, r)) : IsMantissa isDigit m := by
  have hwhole : ∀ x ∈ text.takeWhile isDigit, isDigit x = true :=
    fun x hx => List.all_eq_true.1 List.all_takeWhile x hx
  unfold mantissa? at h
  split at h
  · next rest _ _ =>
    obtain ⟨⟨f, r'⟩, hf, heq⟩ := Option.map_eq_some_iff.1 h
    cases heq
    obtain ⟨hne, hdigits⟩ := mem_of_run? hf
    exact .pointed [] f (by simp) hdigits (.inr hne)
  · cases h
  · next rest _ hne =>
    cases h
    rw [List.append_assoc, List.singleton_append]
    exact .pointed _ _ hwhole (fun x hx => List.all_eq_true.1 List.all_takeWhile x hx) (.inl (by simpa using hne))
  · next hne _ _ =>
    cases h
    exact .whole _ hne hwhole

/-- A mantissa ends before what is neither a digit nor a point, or at the end. -/
theorem mantissa?_stop {isDigit : Char → Bool} {m r : List Char} (hm : IsMantissa isDigit m)
    (hpoint : isDigit '.' = false) (hr : ∀ c ∈ r.head?, isDigit c = false ∧ c ≠ '.') :
    mantissa? isDigit (m ++ r) = some (m, r) := by
  have hdigit : ∀ c ∈ r.head?, isDigit c = false := fun c hc => (hr c hc).1
  cases hm with
  | whole w hw hdigits =>
    have hrun := run_stop hdigits hdigit
    have hne : ∀ rest, r ≠ '.' :: rest := fun rest heq => (hr '.' (by simp [heq])).2 rfl
    simp only [run, Prod.mk.injEq] at hrun
    obtain ⟨d, rest, rfl⟩ := List.exists_cons_of_ne_nil hw
    unfold mantissa?
    rw [hrun.1, hrun.2]
    split <;> simp_all
  | pointed w f hw hf hsome =>
    have hrun := run_stop (r := '.' :: (f ++ r)) hw (by simpa using hpoint)
    simp only [run, Prod.mk.injEq] at hrun
    rw [List.append_assoc, List.cons_append]
    unfold mantissa?
    rw [hrun.1, hrun.2]
    cases w with
    | nil =>
      have hfne : f ≠ [] := by simpa using hsome
      simp [run?_stop hfne hf hdigit, Cut.prepend]
    | cons d rest => simp [run_stop hf hdigit, Cut.prepend]

/-- A mantissa begins with a digit or a point. -/
theorem IsMantissa.starts {isDigit : Char → Bool} {m : List Char} (hm : IsMantissa isDigit m) :
    ∃ d rest, m = d :: rest ∧ (isDigit d = true ∨ d = '.') := by
  cases hm with
  | whole w hw hdigits =>
    obtain ⟨d, rest, rfl⟩ := List.exists_cons_of_ne_nil hw
    exact ⟨d, rest, rfl, .inl (hdigits d (by simp))⟩
  | pointed w f hw hf hsome =>
    cases w with
    | nil => exact ⟨'.', f, rfl, .inr rfl⟩
    | cons d rest => exact ⟨d, _, rfl, .inl (hw d (by simp))⟩

theorem IsMantissa.mem {isDigit : Char → Bool} {m : List Char} (hm : IsMantissa isDigit m) :
    ∀ x ∈ m, isDigit x = true ∨ x = '.' := by
  cases hm with
  | whole w hw hdigits => exact fun x hx => .inl (hdigits x hx)
  | pointed w f hw hf hsome =>
    intro x hx
    simp only [List.mem_append, List.mem_cons] at hx
    rcases hx with hx | rfl | hx
    · exact .inl (hw x hx)
    · exact .inr rfl
    · exact .inl (hf x hx)

/-! ## 3. Exponents -/

/-- A mark, a sign that may be missing, and digits. -/
inductive IsExponent (marks : List Char) : List Char → Prop
  | mk (mark : Char) (signs digits : List Char) : mark ∈ marks → signs ∈ [[], ['+'], ['-']] →
      digits ≠ [] → (∀ x ∈ digits, isDecimalDigit x = true) →
      IsExponent marks (mark :: (signs ++ digits))

theorem sign_mem (text : List Char) : (sign text).1 ∈ [[], ['+'], ['-']] := by
  unfold sign
  split <;> simp

/-- A sign is read in front of a digit, and none where there is none. -/
theorem sign_stop {signs : List Char} {d : Char} (rest : List Char)
    (hs : signs ∈ [[], ['+'], ['-']]) (hd : isDecimalDigit d = true) :
    sign (signs ++ d :: rest) = (signs, d :: rest) := by
  have hplus : d ≠ '+' := fun h => absurd (h ▸ hd) (by decide)
  have hminus : d ≠ '-' := fun h => absurd (h ▸ hd) (by decide)
  simp only [List.mem_cons, List.not_mem_nil, or_false] at hs
  rcases hs with rfl | rfl | rfl
  · simp [sign, hplus, hminus]
  · rfl
  · rfl

theorem isExponent_of {marks text e r : List Char} (h : exponent? marks text = some (e, r)) :
    IsExponent marks e := by
  unfold exponent? at h
  split at h
  · next mark rest =>
    split at h
    · next hmark =>
      obtain ⟨⟨ds, r'⟩, hds, heq⟩ := Option.map_eq_some_iff.1 h
      cases heq
      obtain ⟨hne, hdigits⟩ := mem_of_run? hds
      exact .mk mark _ ds (by simpa using hmark) (sign_mem rest) hne hdigits
    · cases h
  · cases h

/-- An exponent ends before what is not a digit, or at the end. -/
theorem exponent?_stop {marks e r : List Char} (he : IsExponent marks e)
    (hr : ∀ c ∈ r.head?, isDecimalDigit c = false) : exponent? marks (e ++ r) = some (e, r) := by
  obtain ⟨mark, signs, digits, hmark, hsigns, hne, hdigits⟩ := he
  obtain ⟨d, rest, rfl⟩ := List.exists_cons_of_ne_nil hne
  have hsign : sign (signs ++ (d :: rest) ++ r) = (signs, (d :: rest) ++ r) := by
    rw [List.append_assoc, List.cons_append]
    exact sign_stop _ hsigns (hdigits d (by simp))
  rw [List.cons_append, exponent?, if_pos (by simpa using hmark), hsign, run?_stop hne hdigits hr]
  simp [Cut.prepend]

theorem exponent?_eq_none {marks r : List Char} (hr : ∀ c ∈ r.head?, c ∉ marks) :
    exponent? marks r = none := by
  cases r with
  | nil => rfl
  | cons c r => simp [exponent?, hr c rfl]

theorem IsExponent.mem {marks e : List Char} (he : IsExponent marks e) :
    ∀ x ∈ e, isDecimalDigit x = true ∨ x ∈ marks ∨ x = '+' ∨ x = '-' := by
  obtain ⟨mark, signs, digits, hmark, hsigns, -, hdigits⟩ := he
  intro x hx
  simp only [List.mem_cons, List.mem_append] at hx
  rcases hx with rfl | hx | hx
  · exact .inr (.inl hmark)
  · simp only [List.mem_cons, List.not_mem_nil, or_false] at hsigns
    rcases hsigns with rfl | rfl | rfl <;> simp_all
  · exact .inl (hdigits x hx)

/-! ## 4. Characters that end numbers -/

/-- The character goes on with no number and no word. -/
structure Stops (c : Char) : Prop where
  name : isNamePart c = false
  digit : isDecimalDigit c = false
  point : c ≠ '.'

namespace Stops

theorem not_letter {c d : Char} (h : Stops c) (hd : isNamePart d = true) : c ≠ d := by
  rintro rfl
  rw [h.name] at hd
  cases hd

/-- Every hexadecimal digit may stand in a name. -/
theorem isNamePart_of_isHexDigit {c : Char} (h : isHexDigit c = true) : isNamePart c = true := by
  rw [isNamePart, Bool.or_eq_true]
  rcases isHexDigit_iff.1 h with (⟨hlow, hhigh⟩ | hsmall) | hcapital
  · exact .inr (Bool.and_eq_true_iff.2 ⟨decide_eq_true hlow, decide_eq_true hhigh⟩)
  · exact .inl (isNameStart_iff.2 (.inl (.inr (by omega))))
  · exact .inl (isNameStart_iff.2 (.inl (.inl (by omega))))

theorem hex {c : Char} (h : Stops c) : isHexDigit c = false := by
  cases hx : isHexDigit c with
  | false => rfl
  | true => exact absurd rfl (h.not_letter (isNamePart_of_isHexDigit hx))

end Stops

/-- No decimal digit begins a name. -/
theorem not_isNameStart_of_isDecimalDigit {c : Char} (h : isDecimalDigit c = true) :
    isNameStart c = false := by
  have hzeros : ∀ z ∈ digitZeros, z = 0x30 ∨ 0x660 ≤ z := by decide
  obtain ⟨z, hz⟩ := Option.isSome_iff_exists.1 h
  obtain ⟨first, hfind, -⟩ := Option.map_eq_some_iff.1 hz
  have hrange := List.find?_some hfind
  have hmem := hzeros first (List.mem_of_find?_eq_some hfind)
  simp only [Bool.and_eq_true, decide_eq_true_eq] at hrange
  cases hname : isNameStart c with
  | false => rfl
  | true =>
    rcases isNameStart_iff.1 hname with hname | rfl
    · omega
    · change _ ≤ 95 ∧ 95 < _ at hrange
      omega

end LuaLayout.Lexeme
