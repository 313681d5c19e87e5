/-
LuaLayout.Proofs.Lexing.Quotes — where a string between quotes ends.

The lexer goes from quote to quote and counts the backslashes right before each
one; an odd run escapes the quote. A reader of the language goes forward once
instead, and a backslash takes the next character with it, whatever that is.
Both find the same end: where the forward reading stands between two steps, the
run of backslashes that it has just passed is even. Counting backwards stays
within the string, because the opener itself is no backslash.
-/
import LuaLayout.Proofs.Lexing.Cuts

namespace LuaLayout.Lexeme

/-! ## 1. Reading forward -/

/-- The number of characters up to and with the closing quote, read forward. A
backslash takes the next character with it. -/
def closingQuote? (quote : Char) : List Char → Option Nat
  | [] => none
  | ['\\'] => none
  | '\\' :: _ :: rest => (closingQuote? quote rest).map (· + 2)
  | c :: rest => if c = quote then some 1 else (closingQuote? quote rest).map (· + 1)

/-- The characters between two quotes: none of them is such a quote, but for
those that a backslash takes. -/
inductive Inside (quote : Char) : List Char → Prop
  | nil : Inside quote []
  | plain {c : Char} {body : List Char} : c ≠ quote → c ≠ '\\' → Inside quote body →
      Inside quote (c :: body)
  | escaped {c : Char} {body : List Char} : Inside quote body → Inside quote ('\\' :: c :: body)

section

variable {quote c : Char} {text rest body seen : List Char} {n : Nat}

theorem closingQuote?_plain (hc : c ≠ '\\') : closingQuote? quote (c :: rest) =
    if c = quote then some 1 else (closingQuote? quote rest).map (· + 1) := by
  rw [closingQuote?]
  · rintro rfl
    exact absurd rfl hc
  · rintro d rest' rfl
    exact absurd rfl hc

/-- What is inside is passed, and the quote behind it closes. -/
theorem Inside.closingQuote? (hq : quote ≠ '\\') (h : Inside quote body) :
    closingQuote? quote (body ++ quote :: rest) = some (body.length + 1) := by
  induction h with
  | nil => rw [List.nil_append, closingQuote?_plain hq, if_pos rfl]; rfl
  | plain hc hback _ ih =>
    rw [List.cons_append, closingQuote?_plain hback, if_neg hc, ih]
    rfl
  | escaped _ ih =>
    rw [List.cons_append, List.cons_append, Lexeme.closingQuote?, ih]
    rfl

theorem inside_of_closingQuote? (h : closingQuote? quote text = some n) :
    ∃ body rest, text = body ++ quote :: rest ∧ Inside quote body ∧ n = body.length + 1 := by
  fun_induction closingQuote? quote text generalizing n with
  | case1 => cases h
  | case2 => cases h
  | case3 c rest ih =>
    obtain ⟨m, hm, rfl⟩ := Option.map_eq_some_iff.1 h
    obtain ⟨body, after, rfl, hbody, rfl⟩ := ih hm
    exact ⟨'\\' :: c :: body, after, rfl, .escaped hbody, rfl⟩
  | case4 rest =>
    cases h
    exact ⟨[], rest, rfl, .nil, rfl⟩
  | case5 c rest hend hback hc ih =>
    obtain ⟨m, hm, rfl⟩ := Option.map_eq_some_iff.1 h
    obtain ⟨body, after, rfl, hbody, rfl⟩ := ih hm
    have hplain : c ≠ '\\' := by
      rintro rfl
      cases body with
      | nil => exact hback quote after rfl rfl
      | cons d body => exact hback d (body ++ quote :: after) rfl rfl
    exact ⟨c :: body, after, rfl, .plain hc hplain hbody, rfl⟩

/-- The forward reading ends right behind the first quote that nothing takes. -/
theorem closingQuote?_eq_some_iff (hq : quote ≠ '\\') :
    closingQuote? quote text = some n ↔
      ∃ body rest, text = body ++ quote :: rest ∧ Inside quote body ∧ n = body.length + 1 := by
  constructor
  · exact inside_of_closingQuote?
  · rintro ⟨body, rest, rfl, hbody, rfl⟩
    exact hbody.closingQuote? hq

/-! ## 2. Counting backwards -/

theorem backslashesBefore_backslash :
    backslashesBefore ('\\' :: seen) = backslashesBefore seen + 1 := by
  simp [backslashesBefore]

theorem backslashesBefore_plain (hc : c ≠ '\\') : backslashesBefore (c :: seen) = 0 := by
  simp [backslashesBefore, hc]

/-- Where the run of backslashes behind the reader is even, the search for the
closing quote is the forward reading of the rest. -/
theorem closeQuote?_eq (hq : quote ≠ '\\') (heven : backslashesBefore seen % 2 = 0) :
    closeQuote? quote seen text =
      (closingQuote? quote text).map fun n => (seen.reverse ++ text.take n, text.drop n) := by
  fun_induction closingQuote? quote text generalizing seen with
  | case1 => rfl
  | case2 => simp [closeQuote?, Ne.symm hq]
  | case3 c rest ih =>
    -- The character behind the backslash has an odd run before it and an even one after it.
    have hodd : backslashesBefore ('\\' :: seen) % 2 = 1 := by
      rw [backslashesBefore_backslash]
      omega
    have hnext : backslashesBefore (c :: '\\' :: seen) % 2 = 0 := by
      by_cases hc : c = '\\'
      · rw [hc, backslashesBefore_backslash]
        omega
      · rw [backslashesBefore_plain hc]
    rw [closeQuote?, if_neg (by simp [Ne.symm hq]), closeQuote?, if_neg (by simp [hodd]), ih hnext,
      Option.map_map]
    congr 1
    funext n
    simp
  | case4 rest => simp [closeQuote?, heven]
  | case5 c rest hend hback hc ih =>
    rw [closeQuote?, if_neg (by simp [hc]), Option.map_map]
    by_cases hplain : c = '\\'
    · -- A backslash that nothing follows is the last character.
      subst hplain
      cases rest with
      | nil => exact absurd rfl (hend rfl)
      | cons d rest => exact absurd rfl (hback d rest rfl)
    · rw [ih (by rw [backslashesBefore_plain hplain])]
      congr 1
      funext n
      simp

/-- A quoted string is what the forward reading passes. -/
theorem quoted_cons (hq : quote ≠ '\\') : quoted quote (quote :: text) =
    some (match closingQuote? quote text with
      | some n => .found (quote :: text.take n) (text.drop n)
      | none => .unfinished) := by
  rw [quoted, if_pos (beq_self_eq_true _), closeQuote?_eq hq rfl]
  cases closingQuote? quote text <;> rfl

/-- The indexes that are read when the backslashes before an index are counted
backwards. The last of them holds no backslash; it is the index −1 if every
character from the first on is one. -/
def backReads (text : List Char) : Nat → List Int
  | 0 => [-1]
  | i + 1 => if text[i]? = some '\\' then i :: backReads text i else [(i : Int)]

/-- Behind a character that is no backslash, counting backwards stops there at
the latest, so it counts the run among the characters since. -/
theorem backReads_spec {pos : Nat} (hc : text[pos]? = some c) (hback : c ≠ '\\')
    (hn : pos + 1 + n ≤ text.length) :
    (∀ i ∈ backReads text (pos + 1 + n), (pos : Int) ≤ i) ∧
      (backReads text (pos + 1 + n)).length =
        backslashesBefore ((text.drop (pos + 1)).take n).reverse + 1 := by
  induction n with
  | zero =>
    have hread : backReads text (pos + 1) = [(pos : Int)] := by
      rw [backReads, hc, if_neg (by simpa using hback)]
    rw [Nat.add_zero, hread]
    simp [backslashesBefore]
  | succ n ih =>
    obtain ⟨hfrom, hlength⟩ := ih (by omega)
    have hlast : pos + 1 + n < text.length := by omega
    have htake : (text.drop (pos + 1)).take (n + 1) =
        (text.drop (pos + 1)).take n ++ [text[pos + 1 + n]] := by
      rw [List.take_succ_eq_append_getElem (by rw [List.length_drop]; omega), List.getElem_drop]
    rw [← Nat.add_assoc, backReads, List.getElem?_eq_getElem hlast, htake, List.reverse_append,
      List.reverse_singleton, List.singleton_append]
    by_cases hd : text[pos + 1 + n] = '\\'
    · rw [hd, if_pos rfl, backslashesBefore_backslash, List.length_cons, hlength]
      refine ⟨fun i hi => ?_, rfl⟩
      rcases List.mem_cons.1 hi with rfl | hi
      · omega
      · exact hfrom i hi
    · rw [if_neg (by simpa using hd), backslashesBefore_plain hd]
      refine ⟨fun i hi => ?_, rfl⟩
      obtain rfl := List.mem_singleton.1 hi
      omega

end

/-! ## 3. Strings in a text -/

theorem quote_ne_backslash {quote : Char} (hquote : quote ∈ ['"', '\'']) : quote ≠ '\\' := by
  rintro rfl
  exact absurd hquote (by decide)

/-- From a quote on, a string goes to the first closing quote of a reading
forward, in which a backslash takes the next character with it whatever that is;
it is unfinished exactly if that reading comes to the end of the text without
one. For every quote that might close the string, counting the backslashes
before it reads no index before the opener, and counts those since the opener. -/
theorem quoted_forward {text : List Char} {pos : Nat} {quote : Char}
    (hquote : quote ∈ ['"', '\'']) (hopen : text[pos]? = some quote) :
    quoted quote (text.drop pos) =
        some (match closingQuote? quote (text.drop (pos + 1)) with
          | some n => .found ((text.drop pos).take (1 + n)) (text.drop (pos + 1 + n))
          | none => .unfinished) ∧
      ∀ close, pos < close → text[close]? = some quote →
        (∀ i ∈ backReads text close, (pos : Int) ≤ i) ∧
          (backReads text close).length =
            backslashesBefore ((text.take close).drop (pos + 1)).reverse + 1 := by
  have hback : quote ≠ '\\' := quote_ne_backslash hquote
  constructor
  · obtain ⟨hpos, hget⟩ := List.getElem?_eq_some_iff.1 hopen
    rw [List.drop_eq_getElem_cons hpos, hget, quoted_cons hback]
    cases closingQuote? quote (text.drop (pos + 1)) with
    | none => rfl
    | some n => simp only [Nat.add_comm 1 n, List.take_succ_cons, List.drop_drop]
  · intro close hlt hclose
    obtain ⟨hlength, -⟩ := List.getElem?_eq_some_iff.1 hclose
    obtain ⟨n, rfl⟩ := Nat.exists_eq_add_of_le (show pos + 1 ≤ close from hlt)
    rw [List.drop_take, Nat.add_sub_cancel_left]
    exact backReads_spec hopen hback (Nat.le_of_lt hlength)

/-- A string behind backslashes, with an escaped quote, and closed behind an
escaped backslash; the quote at index 10 closes it. -/
theorem quoted_forward_backslashes :
    let text := "\\\\\\'a\\'b\\\\' c'".toList
    text[3]? = some '\'' ∧
      quoted '\'' (text.drop 3) = some (.found "'a\\'b\\\\'".toList " c'".toList) ∧
      backReads text 10 = [9, 8, 7] ∧ ∀ i ∈ backReads text 10, 3 ≤ i := by
  intro text
  have hopen : text[3]? = some '\'' := by decide
  have hforward := quoted_forward (by decide) hopen
  refine ⟨hopen, ?_, by decide, (hforward.2 10 (by decide) (by decide)).1⟩
  rw [hforward.1]
  decide

end LuaLayout.Lexeme
