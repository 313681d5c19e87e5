/-
LuaLayout.Proofs.Lexing.Brackets — texts that carry their own end.

A quoted string, a long string and a long comment hold the mark that ends them.
So each of them ends where it does whatever comes after it: a reader that takes
one from a longer text takes it from the text alone, and from every other text
that begins with it.
-/
import LuaLayout.Lexeme.Classes

namespace LuaLayout.Lexeme

/-! ## 1. Long brackets -/

theorem longOpener?_append (level : Nat) (body : List Char) :
    longOpener? (longOpener level ++ body) = some (level, body) := by
  have hall : ∀ x ∈ List.replicate level '=', (x == '=') = true := by simp
  simp only [longOpener, List.cons_append, List.append_assoc, List.nil_append, longOpener?]
  rw [List.dropWhile_append_of_pos hall, List.takeWhile_append_of_pos hall]
  simp

/-- An opener stays one when more text follows. -/
theorem longOpener?_append_right {text body : List Char} {level : Nat} (r : List Char)
    (h : longOpener? text = some (level, body)) :
    longOpener? (text ++ r) = some (level, body ++ r) := by
  rw [longOpener?_eq h, List.append_assoc, longOpener?_append]

/-- A line end makes no opener out of what is none. -/
theorem longOpener?_line {text r : List Char} (h : longOpener? text = none)
    (hr : ∀ c ∈ r.head?, c = '\n') : longOpener? (text ++ r) = none := by
  cases ho : longOpener? (text ++ r) with
  | none => rfl
  | some p =>
    obtain ⟨level, body⟩ := p
    have heq := longOpener?_eq ho
    rcases List.append_eq_append_iff.1 heq with ⟨z, hopener, hrest⟩ | ⟨z, htext, -⟩
    · cases z with
      | nil =>
        rw [List.append_nil] at hopener
        rw [← hopener, ← List.append_nil (longOpener level), longOpener?_append] at h
        cases h
      | cons d z =>
        have hd : d = '\n' := hr d (by rw [hrest]; rfl)
        have hmem : '\n' ∈ longOpener level := by rw [hopener, hd]; simp
        simp [longOpener] at hmem
    · rw [htext, longOpener?_append] at h
      cases h

/-- A cut ends with the mark that it was made after. -/
theorem cutAfter?_suffix {mark text : List Char} {c : Cut} (h : cutAfter? mark text = some c) :
    mark <:+ c.1 := by
  induction text generalizing c with
  | nil =>
    unfold cutAfter? at h
    split at h
    · next hm =>
      rw [List.isEmpty_iff.1 hm]
      exact List.nil_suffix
    · cases h
  | cons d rest ih =>
    unfold cutAfter? at h
    split at h
    · cases h
      exact List.suffix_rfl
    · obtain ⟨e, he, rfl⟩ := Option.map_eq_some_iff.1 h
      exact (ih he).trans (List.suffix_append _ _)

theorem cutAfter?_length {mark text : List Char} {c : Cut} (h : cutAfter? mark text = some c) :
    mark.length ≤ c.1.length :=
  (cutAfter?_suffix h).length_le

/-- The first occurrence of a mark stays the first when more text follows. -/
theorem cutAfter?_append_right {mark text x y : List Char} (r : List Char)
    (h : cutAfter? mark text = some (x, y)) :
    cutAfter? mark (text ++ r) = some (x, y ++ r) := by
  induction text generalizing x with
  | nil =>
    unfold cutAfter? at h
    split at h
    · next hm =>
      cases h
      obtain rfl := List.isEmpty_iff.1 hm
      cases r <;> simp [cutAfter?]
    · cases h
  | cons d rest ih =>
    unfold cutAfter? at h
    rw [List.cons_append, cutAfter?]
    split at h
    · next hp =>
      cases h
      obtain ⟨t, ht⟩ := List.isPrefixOf_iff_prefix.1 hp
      rw [← List.cons_append, ← ht, if_pos]
      · simp
      · exact List.isPrefixOf_iff_prefix.2 ⟨t ++ r, by simp⟩
    · next hp =>
      obtain ⟨⟨x', y'⟩, he, heq⟩ := Option.map_eq_some_iff.1 h
      cases heq
      rw [if_neg, ih he]
      · rfl
      · intro hp'
        refine hp (List.isPrefixOf_iff_prefix.2 (List.prefix_of_prefix_length_le
          (List.isPrefixOf_iff_prefix.1 hp') ⟨r, by simp⟩ ?_))
        -- The mark occurs later in the text, so it is no longer than the text.
        have hmark := cutAfter?_length he
        have hcut := congrArg List.length (cutAfter?_append he)
        simp only [List.length_append, List.length_cons] at hmark hcut ⊢
        omega

/-- A text that is cut at its own end is so without what follows it. -/
theorem cutAfter?_self {mark text r : List Char} (hne : mark ≠ [])
    (h : cutAfter? mark (text ++ r) = some (text, r)) : cutAfter? mark text = some (text, []) := by
  induction text with
  | nil =>
    have hlen := cutAfter?_length h
    exact absurd (List.eq_nil_of_length_eq_zero (Nat.le_zero.1 hlen)) hne
  | cons d rest ih =>
    rw [List.cons_append, cutAfter?] at h
    rw [cutAfter?]
    split at h
    · simp only [Option.some.injEq, Prod.mk.injEq] at h
      simp [h.1]
    · next hp =>
      obtain ⟨⟨x, y⟩, he, heq⟩ := Option.map_eq_some_iff.1 h
      simp only [Cut.prepend, List.singleton_append, Prod.mk.injEq, List.cons.injEq,
        true_and] at heq
      rw [heq.1, heq.2] at he
      rw [if_neg, ih he]
      · rfl
      · intro hp'
        obtain ⟨t, ht⟩ := List.isPrefixOf_iff_prefix.1 hp'
        exact hp (List.isPrefixOf_iff_prefix.2 ⟨t ++ r, by
          rw [← List.append_assoc, ht, List.cons_append]⟩)

/-- A text that runs from an opener to the first closer of its level. -/
def IsLong (b : List Char) : Prop :=
  ∃ level body, b = longOpener level ++ body ∧ cutAfter? (longCloser level) body = some (body, [])

theorem isLong_of {text b r : List Char} (h : longString text = some (.found b r)) : IsLong b := by
  have hcut : Cut.Of (b, r) text := longString_of h
  obtain ⟨⟨level, body⟩, ho, hread⟩ := Option.map_eq_some_iff.1 h
  simp only at hread
  split at hread
  · next c hc =>
    cases hread
    have hbody := cutAfter?_append hc
    refine ⟨level, c.1, rfl, cutAfter?_self (by simp [longCloser]) (r := c.2) ?_⟩
    rw [hbody, hc]
  · cases hread

theorem IsLong.getLast? {b : List Char} (h : IsLong b) : b.getLast? = some ']' := by
  obtain ⟨level, body, rfl, hclosed⟩ := h
  obtain ⟨inside, hbody⟩ := cutAfter?_suffix hclosed
  obtain rfl : inside ++ longCloser level = body := hbody
  have hcloser : (longCloser level).getLast? = some ']' := List.getLast?_concat
  simp [List.getLast?_append, hcloser]

/-- A long bracket ends where it does whatever follows. -/
theorem longString_append {b : List Char} (r : List Char) (hb : IsLong b) :
    longString (b ++ r) = some (.found b r) := by
  obtain ⟨level, body, rfl, hclosed⟩ := hb
  have hcut := cutAfter?_append_right r hclosed
  rw [List.append_assoc, longString, longOpener?_append, Option.map_some]
  simp only [hcut, List.nil_append]
  rfl

/-! ## 2. Quoted strings -/

theorem closeQuote?_getLast? {quote : Char} {seen text : List Char} {c : Cut}
    (h : closeQuote? quote seen text = some c) : c.1.getLast? = some quote := by
  induction text generalizing seen with
  | nil => cases h
  | cons d rest ih =>
    unfold closeQuote? at h
    split at h
    · next hq =>
      cases h
      simpa using (Bool.and_eq_true_iff.1 hq).1
    · exact ih h

theorem closeQuote?_append_right {quote : Char} {seen text x y : List Char} (r : List Char)
    (h : closeQuote? quote seen text = some (x, y)) :
    closeQuote? quote seen (text ++ r) = some (x, y ++ r) := by
  induction text generalizing seen with
  | nil => cases h
  | cons d rest ih =>
    unfold closeQuote? at h
    rw [List.cons_append, closeQuote?]
    split at h
    · next hq => cases h; rw [if_pos hq]
    · next hq => rw [if_neg hq, ih h]

theorem closeQuote?_self {quote : Char} {seen text r : List Char}
    (h : closeQuote? quote seen (text ++ r) = some (seen.reverse ++ text, r)) :
    closeQuote? quote seen text = some (seen.reverse ++ text, []) := by
  induction text generalizing seen with
  | nil =>
    -- A string takes at least its closing quote.
    have hlonger : ∀ (seen t : List Char) (c : Cut), closeQuote? quote seen t = some c →
        seen.length < c.1.length := by
      intro seen t
      induction t generalizing seen with
      | nil => intro c hc; cases hc
      | cons d rest ih =>
        intro c hc
        unfold closeQuote? at hc
        split at hc
        · cases hc; simp
        · have hlt := ih (d :: seen) c hc
          simp only [List.length_cons] at hlt
          omega
    have hlt := hlonger _ _ _ h
    simp at hlt
  | cons d rest ih =>
    rw [List.cons_append, closeQuote?] at h
    rw [closeQuote?]
    split at h
    · next hq =>
      rw [if_pos hq]
      have hrest : rest = [] := by
        have hx := (Prod.mk.inj (Option.some.inj h)).1
        rw [List.reverse_cons, List.append_cancel_left_eq] at hx
        exact (List.cons.inj hx).2.symm
      subst hrest
      simp
    · next hq =>
      rw [if_neg hq]
      have heq : seen.reverse ++ d :: rest = (d :: seen).reverse ++ rest := by simp
      rw [heq] at h ⊢
      exact ih h

/-- A text that runs from a quote to the first unescaped one of its kind. -/
def IsQuoted (quote : Char) (b : List Char) : Prop :=
  ∃ body, b = quote :: body ∧ closeQuote? quote [] body = some (body, [])

theorem isQuoted_of {quote : Char} {text b r : List Char}
    (h : quoted quote text = some (.found b r)) : IsQuoted quote b := by
  unfold quoted at h
  split at h
  · cases h
  · next d rest =>
    split at h
    · split at h
      · next c hc =>
        have hbody := closeQuote?_append hc
        cases h
        refine ⟨c.1, rfl, ?_⟩
        simp only [List.reverse_nil, List.nil_append] at hbody
        rw [← hbody] at hc
        exact closeQuote?_self hc
      · cases h
    · cases h

theorem IsQuoted.getLast? {quote : Char} {b : List Char} (h : IsQuoted quote b) :
    b.getLast? = some quote := by
  obtain ⟨body, rfl, hclosed⟩ := h
  have hlast := closeQuote?_getLast? hclosed
  simp [List.getLast?_cons, hlast]

/-- A quoted string ends where it does whatever follows. -/
theorem quoted_append {quote : Char} {b : List Char} (r : List Char) (hb : IsQuoted quote b) :
    quoted quote (b ++ r) = some (.found b r) := by
  obtain ⟨body, rfl, hclosed⟩ := hb
  have hcut := closeQuote?_append_right r hclosed
  rw [List.cons_append, quoted, if_pos (beq_self_eq_true _), hcut]
  rfl

end LuaLayout.Lexeme
