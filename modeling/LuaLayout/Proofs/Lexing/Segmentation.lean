/-
LuaLayout.Proofs.Lexing.Segmentation — a text falls into tokens in one way that
can be told without running the lexer.

At every offset the classes are asked in their order, and the first whose
language has a text in front gives the token; the token is the longest such
text, or the shortest where a closer ends it. The four classes of numbers are
ordered so that together they take the longest number of any form: the forms
with an exponent come first, and no decimal number goes beyond the zero of a
hexadecimal one.
-/
import LuaLayout.Proofs.Lexing.Languages
import LuaLayout.Proofs.Lexing.Lossless

namespace LuaLayout

namespace Lexeme

/-! ## 1. The first class -/

/-- The classes that are asked before a class. -/
def classesBefore (kind : TokenKind) : List TokenKind :=
  (classes.map Prod.fst).takeWhile (· != kind)

section

variable {kind : TokenKind} {text b r : List Char}

/-- No text in front belongs to a class that is asked before the class. -/
def FirstIn (kind : TokenKind) (text : List Char) : Prop :=
  ∀ earlier ∈ classesBefore kind, ∀ x, Language earlier x → ¬ x <+: text

theorem picked_of_first? (h : first? text = some (kind, .found b r)) :
    FirstIn kind text ∧ Picked kind text b := by
  obtain ⟨front, ⟨kind', read⟩, back, hsplit, hread, hnone⟩ := List.findSome?_eq_some_iff.1 h
  obtain ⟨reading, hreading, heq⟩ := Option.map_eq_some_iff.1 hread
  cases heq
  have hmem : ∀ p ∈ front ++ (kind, read) :: back, p ∈ classes := fun p hp => hsplit ▸ hp
  refine ⟨fun earlier hearlier => ?_, (agrees_of_mem (hmem (kind, read) (by simp))).picked hreading⟩
  -- The classes before are among those that did not apply.
  have hfront : earlier ∈ front.map Prod.fst := by
    rw [classesBefore, hsplit, List.map_append, List.map_cons, List.takeWhile_append] at hearlier
    split at hearlier
    · simpa using hearlier
    · exact (List.takeWhile_prefix _).subset hearlier
  obtain ⟨⟨_, read'⟩, hclass, rfl⟩ := List.mem_map.1 hfront
  exact (agrees_of_mem (hmem _ (List.mem_append_left _ hclass))).none_in_front
    (Option.map_eq_none_iff.1 (hnone _ hclass))

/-- The first class of numbers that applies takes the longest number of any form. -/
theorem longest_numeral (hkind : kind ∈ numeralKinds) (hfirst : FirstIn kind text)
    (hpicked : Picked kind text b) : Longest IsNumeral text b := by
  obtain ⟨hword, hfront⟩ := hpicked.language
  refine ⟨⟨kind, hkind, hword⟩, hfront, ?_⟩
  rintro x ⟨form, hform, hx⟩ hxfront
  by_cases hbefore : form ∈ classesBefore kind
  · exact absurd hxfront (hfirst form hbefore x hx)
  simp only [numeralKinds, List.mem_cons, List.not_mem_nil, or_false] at hkind hform
  -- A form that is asked later takes no more than the form that applied.
  rcases hkind with rfl | rfl | rfl | rfl
  · rcases hform with rfl | rfl | rfl | rfl
    · exact hpicked.2.2 x hx hxfront
    · exact hexadecimal_le_scientificHex hword hfront hx hxfront
    · exact decimal_le_hexadecimal (.inr hword) hfront (.inr hx) hxfront
    · exact decimal_le_hexadecimal (.inr hword) hfront (.inl hx) hxfront
  · rcases hform with rfl | rfl | rfl | rfl
    · exact absurd (by decide) hbefore
    · exact hpicked.2.2 x hx hxfront
    · exact decimal_le_hexadecimal (.inl hword) hfront (.inr hx) hxfront
    · exact decimal_le_hexadecimal (.inl hword) hfront (.inl hx) hxfront
  · rcases hform with rfl | rfl | rfl | rfl
    · exact absurd (by decide) hbefore
    · exact absurd (by decide) hbefore
    · exact hpicked.2.2 x hx hxfront
    · exact mantissa_le_scientific hword hfront hx hxfront
  · rcases hform with rfl | rfl | rfl | rfl
    · exact absurd (by decide) hbefore
    · exact absurd (by decide) hbefore
    · exact absurd (by decide) hbefore
    · exact hpicked.2.2 x hx hxfront

end

end Lexeme

/-! ## 2. Whole texts -/

/-- The characters of the tokens of a text are the text. -/
theorem charsOf_tokenize {source : String} {tokens : List Token}
    (h : tokenize source = .ok tokens) : charsOf tokens = source.toList := by
  obtain ⟨segments, hcuts, rfl⟩ := tokenize_eq_ok_iff.1 h
  have hchars := hcuts.chars_append
  rwa [List.append_nil, ← charsOf_place Position.start] at hchars

/-- Where a token stands, its class is the first that applies. -/
theorem Cuts.first?_place {text rest : List Char} {segments : List Segment}
    (h : Cuts text segments rest) {p : Position} {before after : List Token} {t : Token}
    (heq : Segment.place p segments = before ++ t :: after) :
    ∃ remaining r, text = charsOf before ++ remaining ∧
      Lexeme.first? remaining = some (t.kind, .found t.text.toList r) := by
  induction h generalizing p before with
  | nil text => cases before <;> cases heq
  | @cons text b r rest kind segments hfirst _ ih =>
    rw [Segment.place] at heq
    cases before with
    | nil =>
      obtain ⟨rfl, -⟩ := List.cons.inj heq
      exact ⟨text, r, rfl, by rwa [String.toList_ofList]⟩
    | cons u before =>
      obtain ⟨rfl, hlater⟩ := List.cons.inj heq
      obtain ⟨remaining, r', rfl, hread⟩ := ih hlater
      refine ⟨remaining, r', ?_, hread⟩
      have hcut : b ++ (charsOf before ++ remaining) = text := (Lexeme.first?_of hfirst).2
      rw [← hcut, ← List.append_assoc]
      simp [charsOf]

/-- The tokens of a text follow each other without a gap. At each of them, no
class asked before its own has a text in front; the token is the longest text in
front that is of its class, or the shortest where the class ends with a closer;
and a number is the longest number in front, of whatever form. -/
theorem tokenize_picks {source : String} {tokens before after : List Token} {t : Token}
    (h : tokenize source = .ok tokens) (heq : tokens = before ++ t :: after) :
    charsOf tokens = source.toList ∧
      Lexeme.FirstIn t.kind (charsOf (t :: after)) ∧
      Lexeme.Picked t.kind (charsOf (t :: after)) t.text.toList ∧
      (t.kind ∈ Lexeme.numeralKinds →
        Lexeme.Longest Lexeme.IsNumeral (charsOf (t :: after)) t.text.toList) := by
  have hchars := charsOf_tokenize h
  obtain ⟨segments, hcuts, hplace⟩ := tokenize_eq_ok_iff.1 h
  obtain ⟨remaining, r, htext, hfirst⟩ := hcuts.first?_place (hplace.symm.trans heq)
  have hremaining : remaining = charsOf (t :: after) := by
    rw [← hchars, heq, charsOf_append] at htext
    exact (List.append_cancel_left htext).symm
  rw [← hremaining]
  obtain ⟨hearlier, hpicked⟩ := Lexeme.picked_of_first? hfirst
  exact ⟨hchars, hearlier, hpicked, fun hkind => Lexeme.longest_numeral hkind hearlier hpicked⟩

/-- A hexadecimal number in front of a mark and a sign without digits, and an
opener that is none: the number gives the mark back and no longer number stands
there. -/
theorem tokenize_picks_mark :
    let tokens : List Token :=
      [⟨.hexNumber, "0x.1", ⟨1, 1⟩⟩, ⟨.name, "p", ⟨1, 5⟩⟩, ⟨.operator, "+", ⟨1, 6⟩⟩,
        ⟨.operator, "[", ⟨1, 7⟩⟩, ⟨.operator, "==", ⟨1, 8⟩⟩]
    tokenize "0x.1p+[==" = .ok tokens ∧
      (∀ x, Lexeme.Language .sciHexNumber x → ¬ x <+: "0x.1p+[==".toList) ∧
      Lexeme.Longest Lexeme.IsNumeral "0x.1p+[==".toList "0x.1".toList := by
  intro tokens
  have htokens : tokenize "0x.1p+[==" = .ok tokens := by decide +kernel
  have hfirst : tokens = [] ++ ⟨.hexNumber, "0x.1", ⟨1, 1⟩⟩ :: tokens.tail := rfl
  obtain ⟨-, hearlier, -, hnumeral⟩ := tokenize_picks htokens hfirst
  exact ⟨htokens, hearlier .sciHexNumber (by decide), hnumeral (by decide)⟩

end LuaLayout
