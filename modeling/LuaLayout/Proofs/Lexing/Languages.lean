/-
LuaLayout.Proofs.Lexing.Languages — what each lexical class takes of a text.

`Language` gives every class the set of texts that belong to it, with no word
about how they are found. A class applies exactly where some text of its
language stands in front. What it takes is then the longest such text, or the
shortest where a closer ends it: runs, greedy numerals that give back a half
finished exponent, operators tried from three characters down, and closers
searched for from the left all come to that. `Greedy` is the form in which the
long ones are proved: a cut is a word of the language, and every word in front
of a text is met by a cut at least as long.
-/
import LuaLayout.Proofs.Lexing.Quotes

namespace LuaLayout.Lexeme

open Text

/-! ## 1. Languages -/

/-- The texts of a class. Long brackets have one level at both ends. -/
def Language : TokenKind → List Char → Prop
  | .blockComment, b => ∃ level body,
      b = '-' :: '-' :: (longOpener level ++ (body ++ longCloser level))
  | .lineComment, b => ∃ body, b = '-' :: '-' :: body ∧ ∀ x ∈ body, isLineEnd x = false
  | .blockQuote, b => ∃ level body, b = longOpener level ++ (body ++ longCloser level)
  | .doubleQuoted, b => ∃ body, b = '"' :: (body ++ ['"']) ∧ Inside '"' body
  | .singleQuoted, b => ∃ body, b = '\'' :: (body ++ ['\'']) ∧ Inside '\'' body
  | kind, b => IsLexeme kind b

/-- The longest text of a language in front of a text. -/
def Longest (L : List Char → Prop) (text b : List Char) : Prop :=
  L b ∧ b <+: text ∧ ∀ x, L x → x <+: text → x.length ≤ b.length

/-- The shortest text of a language in front of a text. -/
def Shortest (L : List Char → Prop) (text b : List Char) : Prop :=
  L b ∧ b <+: text ∧ ∀ x, L x → x <+: text → b.length ≤ x.length

/-- What a class takes of a text: up to the first closer, or as far as its
language goes. -/
def Picked : TokenKind → List Char → List Char → Prop
  | .blockComment, text, b => Shortest (Language .blockComment) text b
  | .blockQuote, text, b => Shortest (Language .blockQuote) text b
  | .doubleQuoted, text, b => Shortest (Language .doubleQuoted) text b
  | .singleQuoted, text, b => Shortest (Language .singleQuoted) text b
  | kind, text, b => Longest (Language kind) text b

theorem Picked.language {kind : TokenKind} {text b : List Char} (h : Picked kind text b) :
    Language kind b ∧ b <+: text := by
  cases kind <;> exact ⟨h.1, h.2.1⟩

/-! ## 2. Classes that go as far as they can -/

/-- A cut takes a word of the language, and meets every word in front of a text
with one that is no shorter. -/
structure Greedy (L : List Char → Prop) (cut? : List Char → Option Cut) : Prop where
  sound : ∀ {text : List Char} {c : Cut}, cut? text = some c → c.Of text ∧ L c.1
  covers : ∀ {x : List Char} (t : List Char), L x →
    ∃ c, cut? (x ++ t) = some c ∧ x.length ≤ c.1.length

section

variable {L : List Char → Prop} {cut? : List Char → Option Cut} {text b r : List Char}

theorem Greedy.longest (h : Greedy L cut?) (hcut : cut? text = some (b, r)) :
    Longest L text b := by
  obtain ⟨hof, hword⟩ := h.sound hcut
  refine ⟨hword, ⟨r, hof.2⟩, ?_⟩
  rintro x hx ⟨t, rfl⟩
  obtain ⟨c, hc, hle⟩ := h.covers t hx
  obtain rfl := Option.some.inj (hcut.symm.trans hc)
  exact hle

theorem Greedy.none_in_front (h : Greedy L cut?) (hcut : cut? text = none) {x : List Char}
    (hx : L x) : ¬ x <+: text := by
  rintro ⟨t, rfl⟩
  obtain ⟨c, hc, -⟩ := h.covers t hx
  rw [hcut] at hc
  cases hc

end

theorem length_le_takeWhile {p : Char → Bool} {x : List Char} (t : List Char)
    (hx : ∀ c ∈ x, p c = true) : x.length ≤ ((x ++ t).takeWhile p).length := by
  rw [List.takeWhile_append_of_pos hx, List.length_append]
  exact Nat.le_add_right _ _

theorem greedy_run? (p : Char → Bool) :
    Greedy (fun b => b ≠ [] ∧ ∀ x ∈ b, p x = true) (run? p) where
  sound h := ⟨run?_of h, mem_of_run? h⟩
  covers {x} t hx := by
    have hle := length_le_takeWhile t hx.2
    have hpos := List.length_pos_iff.2 hx.1
    refine ⟨run p (x ++ t), if_neg fun hempty => ?_, hle⟩
    rw [List.isEmpty_iff.1 hempty] at hle
    exact absurd hle (Nat.not_le_of_lt hpos)

theorem greedy_name? : Greedy (Language .name) name? where
  sound {text c} h := by
    refine ⟨name?_of h, ?_⟩
    unfold name? at h
    split at h
    · next d rest =>
      split at h
      · next hd =>
        cases h
        exact ⟨d, _, rfl, hd, mem_of_run rfl⟩
      · cases h
    · cases h
  covers {x} t hx := by
    obtain ⟨d, rest, rfl, hd, hrest⟩ := hx
    refine ⟨_, if_pos hd, ?_⟩
    simpa [Cut.prepend, run] using length_le_takeWhile t hrest

theorem greedy_lineComment? : Greedy (Language .lineComment) lineComment? where
  sound {text c} h := by
    refine ⟨lineComment?_of h, ?_⟩
    unfold lineComment? at h
    split at h
    · next rest =>
      cases h
      exact ⟨_, rfl, fun x hx => by simpa using mem_of_run rfl x hx⟩
    · cases h
  covers {x} t hx := by
    obtain ⟨body, rfl, hbody⟩ := hx
    have hline : ∀ x ∈ body, (!isLineEnd x) = true := by simpa using hbody
    refine ⟨_, rfl, ?_⟩
    simpa [Cut.prepend, run] using length_le_takeWhile t hline

/-- No operator has more characters than are tried. -/
theorem symbols_length : ∀ b ∈ symbols, b.length ∈ [3, 2, 1] := by decide

theorem greedy_operator? : Greedy (Language .operator) operator? where
  sound {text c} h := by
    refine ⟨operator?_of h, ?_⟩
    obtain ⟨n, -, hn⟩ := List.exists_of_findSome?_eq_some h
    unfold operatorOf? at hn
    split at hn
    · next hknown => cases hn; exact hknown
    · cases hn
  covers {x} t hx := by
    -- The word itself is found at its own length, so the search stops there or before.
    have hlength := symbols_length x (isLexeme_operator.1 hx)
    have hknown : Vocabulary.allOperators.contains (String.ofList x) = true := hx
    have hself : operatorOf? (x ++ t) x.length = some (x, t) := by
      rw [operatorOf?, List.take_left, List.drop_left, if_pos hknown]
    have hmin : ∀ n c, operatorOf? (x ++ t) n = some c → x.length ≤ n →
        x.length ≤ c.1.length := by
      intro n c hc hn
      unfold operatorOf? at hc
      split at hc
      · cases hc
        simp only [List.length_take, List.length_append]
        omega
      · cases hc
    cases hop : operator? (x ++ t) with
    | none =>
      have hnone := List.findSome?_eq_none_iff.1 hop x.length hlength
      rw [hself] at hnone
      cases hnone
    | some c =>
      refine ⟨c, rfl, ?_⟩
      obtain ⟨longer, n, shorter, hsplit, hn, hlonger⟩ := List.findSome?_eq_some_iff.1 hop
      refine hmin n c hn ?_
      -- Lengths are tried from the longest down.
      have hdown : (longer ++ n :: shorter).Pairwise (· > ·) := hsplit ▸ by decide
      rw [hsplit, List.mem_append, List.mem_cons] at hlength
      rcases hlength with hmem | heq | hmem
      · rw [hlonger _ hmem] at hself
        cases hself
      · exact Nat.le_of_eq heq
      · exact Nat.le_of_lt (List.rel_of_pairwise_cons (List.pairwise_append.1 hdown).2.1 hmem)

/-! ## 3. Numerals -/

theorem greedy_mantissa? {isDigit : Char → Bool} (hpoint : isDigit '.' = false) :
    Greedy (IsMantissa isDigit) (mantissa? isDigit) where
  sound h := ⟨mantissa?_of h, isMantissa_of h⟩
  covers {x} t hx := by
    cases hx with
    | whole w hw hdigits =>
      -- The digits are at least those of the word; a point may go on with them.
      have hle := length_le_takeWhile t hdigits
      have hpos := List.length_pos_iff.2 hw
      have hne : (x ++ t).takeWhile isDigit ≠ [] := fun hnil => by
        rw [hnil] at hle
        exact absurd hle (Nat.not_le_of_lt hpos)
      unfold mantissa?
      split
      · next hnil _ => exact absurd hnil hne
      · next hnil _ => exact absurd hnil hne
      · refine ⟨_, rfl, ?_⟩
        simp only [Cut.prepend, List.length_append]
        omega
      · exact ⟨_, rfl, hle⟩
    | pointed w f hw hf hsome =>
      have hrun := run_stop (r := '.' :: (f ++ t)) hw (by simpa using hpoint)
      simp only [run, Prod.mk.injEq] at hrun
      rw [List.append_assoc, List.cons_append]
      unfold mantissa?
      rw [hrun.1, hrun.2]
      cases w with
      | nil =>
        have hfne : f ≠ [] := by simpa using hsome
        obtain ⟨c, hc, hle⟩ := (greedy_run? isDigit).covers t ⟨hfne, hf⟩
        refine ⟨_, congrArg (Option.map _) hc, ?_⟩
        simpa [Cut.prepend] using hle
      | cons d rest =>
        refine ⟨_, rfl, ?_⟩
        simpa [Cut.prepend, run] using length_le_takeWhile t hf

theorem greedy_exponent? (marks : List Char) :
    Greedy (IsExponent marks) (exponent? marks) where
  sound h := ⟨exponent?_of h, isExponent_of h⟩
  covers {x} t hx := by
    obtain ⟨mark, signs, digits, hmark, hsigns, hne, hdigits⟩ := hx
    obtain ⟨d, rest, rfl⟩ := List.exists_cons_of_ne_nil hne
    obtain ⟨c, hc, hle⟩ := (greedy_run? isDecimalDigit).covers t ⟨hne, hdigits⟩
    have hsign : sign (signs ++ (d :: rest) ++ t) = (signs, (d :: rest) ++ t) := by
      rw [List.append_assoc, List.cons_append]
      exact sign_stop _ hsigns (hdigits d (by simp))
    refine ⟨c.prepend (mark :: signs), ?_, ?_⟩
    · rw [List.cons_append, exponent?, if_pos (by simpa using hmark), hsign]
      exact congrArg (Option.map _) hc
    · simp only [Cut.prepend, List.length_append, List.length_cons] at hle ⊢
      omega

/-- A mantissa ends where an exponent begins. -/
theorem IsExponent.head_stops {marks e : List Char} {isDigit : Char → Bool}
    (he : IsExponent marks e) (hmarks : ∀ c ∈ marks, isDigit c = false ∧ c ≠ '.')
    (t : List Char) : ∀ c ∈ (e ++ t).head?, isDigit c = false ∧ c ≠ '.' := by
  obtain ⟨mark, signs, digits, hmark, -⟩ := he
  simpa using hmarks mark hmark

/-- A cut that is followed by an exponent is lengthened by at least as much. -/
theorem withExponent?_covers {marks front e : List Char} (t : List Char)
    (he : IsExponent marks e) : ∃ c, withExponent? marks (front, e ++ t) = some c ∧
      (front ++ e).length ≤ c.1.length := by
  obtain ⟨c, hc, hle⟩ := (greedy_exponent? marks).covers t he
  refine ⟨c.prepend front, congrArg (Option.map _) hc, ?_⟩
  simp only [Cut.prepend, List.length_append]
  omega

theorem decimalMarks_stop : ∀ c ∈ ['e', 'E'], isDecimalDigit c = false ∧ c ≠ '.' :=
  List.forall_mem_cons.2 ⟨by decide, List.forall_mem_singleton.2 (by decide)⟩

theorem hexMarks_stop : ∀ c ∈ ['p', 'P'], isHexDigit c = false ∧ c ≠ '.' :=
  List.forall_mem_cons.2 ⟨by decide, List.forall_mem_singleton.2 (by decide)⟩

/-- A decimal number ends where its exponent begins. -/
theorem decimal?_exponent {m e : List Char} (hm : IsMantissa isDecimalDigit m)
    (he : IsExponent ['e', 'E'] e) (t : List Char) :
    decimal? (m ++ e ++ t) = some (m, e ++ t) := by
  rw [List.append_assoc]
  exact mantissa?_stop hm (by decide) (he.head_stops decimalMarks_stop t)

/-- A hexadecimal number ends where its exponent begins. -/
theorem hexadecimal?_exponent {mark : Char} {m e : List Char} (hmark : mark ∈ hexMarks)
    (hm : IsMantissa isHexDigit m) (he : IsExponent ['p', 'P'] e) (t : List Char) :
    hexadecimal? ('0' :: mark :: (m ++ e) ++ t) = some ('0' :: mark :: m, e ++ t) := by
  have hsplit : '0' :: mark :: (m ++ e) ++ t = '0' :: mark :: m ++ (e ++ t) := by simp
  rw [hsplit]
  exact hexadecimal?_stop hmark hm (he.head_stops hexMarks_stop t)

theorem greedy_decimal? : Greedy (Language .number) decimal? :=
  greedy_mantissa? (by decide)

theorem greedy_hexadecimal? : Greedy (Language .hexNumber) hexadecimal? where
  sound {_ c} h := ⟨hexadecimal?_of h, isLexeme_hexadecimal (b := c.1) (r := c.2) h⟩
  covers {x} t hx := by
    obtain ⟨mark, m, rfl, hmark, hm⟩ := hx
    have hgreedy : Greedy (IsMantissa isHexDigit) (mantissa? isHexDigit) :=
      greedy_mantissa? (by decide)
    obtain ⟨c, hc, hle⟩ := hgreedy.covers t hm
    refine ⟨c.prepend ['0', mark], ?_, ?_⟩
    · rw [List.cons_append, List.cons_append, hexadecimal?,
        if_pos (by simpa [hexMarks] using hmark)]
      exact congrArg (Option.map _) hc
    · simp only [Cut.prepend, List.length_append, List.length_cons, List.length_nil]
      omega

theorem greedy_scientific? : Greedy (Language .sciNumber) scientific? where
  sound {text c} h := by
    refine ⟨scientific?_of h, ?_⟩
    obtain ⟨⟨m, r⟩, hm, he⟩ := Option.bind_eq_some_iff.1 h
    obtain ⟨e, heq, he'⟩ := withExponent?_split he
    exact ⟨m, e, heq, isMantissa_of hm, he'⟩
  covers {x} t hx := by
    obtain ⟨m, e, rfl, hm, he⟩ := hx
    rw [scientific?, decimal?_exponent hm he]
    exact withExponent?_covers t he

theorem greedy_scientificHex? : Greedy (Language .sciHexNumber) scientificHex? where
  sound {text c} h := by
    refine ⟨scientificHex?_of h, ?_⟩
    obtain ⟨⟨front, r⟩, hfront, he⟩ := Option.bind_eq_some_iff.1 h
    obtain ⟨mark, m, rfl, hmark, hm⟩ := isLexeme_hexadecimal hfront
    obtain ⟨e, heq, he'⟩ := withExponent?_split he
    exact ⟨mark, m, e, heq, hmark, hm, he'⟩
  covers {x} t hx := by
    obtain ⟨mark, m, e, rfl, hmark, hm, he⟩ := hx
    rw [scientificHex?, hexadecimal?_exponent hmark hm he]
    exact withExponent?_covers t he

/-- The kinds of numbers. -/
def numeralKinds : List TokenKind := [.sciHexNumber, .hexNumber, .sciNumber, .number]

/-- A number of any of the four forms. -/
def IsNumeral (b : List Char) : Prop := ∃ kind ∈ numeralKinds, Language kind b

/-- The mark of a hexadecimal number stands in no decimal number. -/
theorem hexMark_not_mem {mark : Char} {x : List Char} (hmark : mark ∈ hexMarks)
    (hx : Language .number x ∨ Language .sciNumber x) : mark ∉ x := by
  have hforeign : isDecimalDigit mark = false ∧ mark ≠ '.' ∧ mark ∉ ['e', 'E'] ∧ mark ≠ '+' ∧
      mark ≠ '-' := by
    simp only [hexMarks, List.mem_cons, List.not_mem_nil, or_false] at hmark
    rcases hmark with rfl | rfl <;> decide
  obtain ⟨hdigit, hpoint, hexponent, hplus, hminus⟩ := hforeign
  have hmantissa : ∀ {m : List Char}, IsMantissa isDecimalDigit m → mark ∉ m := by
    intro m hm hmem
    rcases hm.mem mark hmem with h | h
    · rw [hdigit] at h
      cases h
    · exact hpoint h
  rcases hx with hm | ⟨m, e, rfl, hm, he⟩
  · exact hmantissa hm
  · rw [List.mem_append, not_or]
    refine ⟨hmantissa hm, fun hmem => ?_⟩
    rcases he.mem mark hmem with h | h | h | h
    · rw [hdigit] at h
      cases h
    · exact hexponent h
    · exact hplus h
    · exact hminus h

/-- No decimal number goes beyond the zero that a hexadecimal one begins with. -/
theorem decimal_le_hexadecimal {text b x : List Char}
    (hb : Language .hexNumber b ∨ Language .sciHexNumber b) (hfront : b <+: text)
    (hx : Language .number x ∨ Language .sciNumber x) (hxfront : x <+: text) :
    x.length ≤ b.length := by
  obtain ⟨mark, rest, rfl, hmark⟩ : ∃ mark rest, b = '0' :: mark :: rest ∧ mark ∈ hexMarks := by
    rcases hb with ⟨mark, m, rfl, hmark, -⟩ | ⟨mark, m, e, rfl, hmark, -⟩
    · exact ⟨mark, m, rfl, hmark⟩
    · exact ⟨mark, m ++ e, rfl, hmark⟩
  obtain ⟨t, rfl⟩ := hfront
  obtain ⟨t', ht'⟩ := hxfront
  match x, ht' with
  | [], _ => exact Nat.zero_le _
  | [_], _ => simp
  | _ :: d :: _, ht' =>
    obtain rfl : d = mark := (List.cons.inj (List.cons.inj ht').2).1
    exact absurd (by simp) (hexMark_not_mem hmark hx)

/-- A number with exponent is longer than every number without one. -/
theorem mantissa_le_scientific {text b x : List Char} (hb : Language .sciNumber b)
    (hfront : b <+: text) (hx : Language .number x) (hxfront : x <+: text) :
    x.length ≤ b.length := by
  obtain ⟨m, e, rfl, hm, he⟩ := hb
  obtain ⟨t, rfl⟩ := hfront
  have hle := (greedy_decimal?.longest (decimal?_exponent hm he t)).2.2 x hx hxfront
  rw [List.length_append]
  omega

theorem hexadecimal_le_scientificHex {text b x : List Char} (hb : Language .sciHexNumber b)
    (hfront : b <+: text) (hx : Language .hexNumber x) (hxfront : x <+: text) :
    x.length ≤ b.length := by
  obtain ⟨mark, m, e, rfl, hmark, hm, he⟩ := hb
  obtain ⟨t, rfl⟩ := hfront
  have hcut := hexadecimal?_exponent hmark hm he t
  have hle := (greedy_hexadecimal?.longest hcut).2.2 x hx hxfront
  simp only [List.length_cons, List.length_append] at hle ⊢
  omega

/-! ## 4. Classes that a closer ends -/

theorem isLong_closed {b : List Char} (h : IsLong b) : Language .blockQuote b := by
  obtain ⟨level, body, rfl, hcut⟩ := h
  obtain ⟨inside, hbody⟩ := cutAfter?_suffix hcut
  obtain rfl : inside ++ longCloser level = body := hbody
  exact ⟨level, inside, rfl⟩

/-- The first occurrence of a mark is not behind any other. -/
theorem cutAfter?_covers (mark x t : List Char) :
    ∃ c, cutAfter? mark (x ++ (mark ++ t)) = some c ∧ c.1.length ≤ x.length + mark.length := by
  induction x with
  | nil =>
    cases hmark : mark ++ t with
    | nil =>
      obtain ⟨rfl, rfl⟩ := List.append_eq_nil_iff.1 hmark
      exact ⟨([], []), rfl, Nat.le_refl 0⟩
    | cons d rest =>
      refine ⟨_, if_pos (List.isPrefixOf_iff_prefix.2 ⟨t, hmark⟩), ?_⟩
      simp
  | cons d x ih =>
    obtain ⟨c, hc, hle⟩ := ih
    rw [List.cons_append, cutAfter?]
    split
    · refine ⟨_, rfl, ?_⟩
      simp only [List.length_cons]
      omega
    · refine ⟨_, congrArg (Option.map _) hc, ?_⟩
      simp only [Cut.prepend, List.length_append, List.length_cons, List.length_nil]
      omega

/-- A long bracket is read where one stands, and no further than it. -/
theorem longString_covers {x : List Char} (t : List Char) (hx : Language .blockQuote x) :
    ∃ b r, longString (x ++ t) = some (.found b r) ∧ b.length ≤ x.length := by
  obtain ⟨level, body, rfl⟩ := hx
  obtain ⟨c, hc, hle⟩ := cutAfter?_covers (longCloser level) body t
  have hread : longString (longOpener level ++ (body ++ longCloser level) ++ t) =
      some (Reading.ofCut (c.prepend (longOpener level))) := by
    rw [List.append_assoc, List.append_assoc, longString, longOpener?_append, Option.map_some]
    simp only [hc]
  refine ⟨_, _, hread, ?_⟩
  simp only [Cut.prepend, List.length_append]
  omega

theorem longComment_covers {x : List Char} (t : List Char) (hx : Language .blockComment x) :
    ∃ b r, longComment (x ++ t) = some (.found b r) ∧ b.length ≤ x.length := by
  obtain ⟨level, body, rfl⟩ := hx
  obtain ⟨b, r, hread, hle⟩ := longString_covers t ⟨level, body, rfl⟩
  refine ⟨_, r, congrArg (Option.map _) hread, ?_⟩
  simpa using hle

/-- A quoted string is read where one stands, and it is that one. -/
theorem quoted_covers {quote : Char} (hq : quote ≠ '\\') {body : List Char} (t : List Char)
    (hbody : Inside quote body) : quoted quote (quote :: (body ++ [quote]) ++ t) =
      some (.found (quote :: (body ++ [quote])) t) := by
  have hclose : closingQuote? quote (body ++ quote :: t) = some (body.length + 1) :=
    hbody.closingQuote? hq
  have hlength : (body ++ [quote]).length = body.length + 1 := List.length_append
  rw [List.append_cons] at hclose
  rw [List.cons_append, quoted_cons hq, hclose]
  simp only [List.take_left' hlength, List.drop_left' hlength]

theorem inside_of_quoted {quote : Char} (hq : quote ≠ '\\') {text b r : List Char}
    (h : quoted quote text = some (.found b r)) :
    ∃ body, b = quote :: (body ++ [quote]) ∧ Inside quote body := by
  obtain ⟨body, rfl, hclose⟩ := isQuoted_of h
  rw [closeQuote?_eq hq rfl] at hclose
  obtain ⟨n, hn, -⟩ := Option.map_eq_some_iff.1 hclose
  obtain ⟨inside, rest, rfl, hinside, rfl⟩ := (closingQuote?_eq_some_iff hq).1 hn
  have hrest := congrArg (Option.map Prod.snd) hclose
  rw [hn] at hrest
  obtain rfl : rest = [] := by simpa using hrest
  exact ⟨inside, rfl, hinside⟩

/-! ## 5. Every class -/

/-- A class applies where a word of its language stands in front, and takes the
longest or the shortest of them. -/
structure Agrees (kind : TokenKind) (read : Reader) : Prop where
  none_in_front : ∀ {text : List Char}, read text = none → ∀ x, Language kind x → ¬ x <+: text
  picked : ∀ {text b r : List Char}, read text = some (.found b r) → Picked kind text b

/-- A greedy cut makes a class that takes the longest word. -/
theorem Greedy.agrees {kind : TokenKind} {cut? : List Char → Option Cut}
    (h : Greedy (Language kind) cut?)
    (hlong : ∀ {text b : List Char}, Longest (Language kind) text b → Picked kind text b) :
    Agrees kind (closed cut?) where
  none_in_front hnone _ hx := h.none_in_front (Option.map_eq_none_iff.1 hnone) hx
  picked hread := hlong (h.longest (found_of_closed hread))

/-- A class that reads its own words, and no further than any word in front of a
text, takes the shortest. -/
theorem agrees_of_covers {kind : TokenKind} {read : Reader}
    (hof : ∀ {text b r : List Char}, read text = some (.found b r) →
      Cut.Of (b, r) text ∧ Language kind b)
    (hcovers : ∀ {x : List Char} (t : List Char), Language kind x →
      ∃ b r, read (x ++ t) = some (.found b r) ∧ b.length ≤ x.length)
    (hshort : ∀ {text b : List Char}, Shortest (Language kind) text b → Picked kind text b) :
    Agrees kind read where
  none_in_front := by
    rintro text hnone x hx ⟨t, rfl⟩
    obtain ⟨b, r, hread, -⟩ := hcovers t hx
    rw [hnone] at hread
    cases hread
  picked := by
    intro text b r hread
    obtain ⟨hcut, hword⟩ := hof hread
    refine hshort ⟨hword, ⟨r, hcut.2⟩, ?_⟩
    rintro x hx ⟨t, rfl⟩
    obtain ⟨b', r', hread', hle⟩ := hcovers t hx
    rw [hread] at hread'
    cases hread'
    exact hle

theorem agrees_longString : Agrees .blockQuote longString :=
  agrees_of_covers (fun h => ⟨longString_of h, isLong_closed (isLong_of h)⟩)
    longString_covers id

theorem agrees_longComment : Agrees .blockComment longComment := by
  refine agrees_of_covers (fun {text b r} h => ⟨longComment_of h, ?_⟩) longComment_covers id
  unfold longComment at h
  split at h
  · next rest =>
    obtain ⟨reading, hreading, heq⟩ := Option.map_eq_some_iff.1 h
    cases reading with
    | unfinished => cases heq
    | found body after =>
      cases heq
      obtain ⟨level, inside, rfl⟩ := isLong_closed (isLong_of hreading)
      exact ⟨level, inside, rfl⟩
  · cases h

theorem agrees_quoted {kind : TokenKind} {quote : Char} (hq : quote ≠ '\\')
    (hlanguage : ∀ {b : List Char}, Language kind b ↔
      ∃ body, b = quote :: (body ++ [quote]) ∧ Inside quote body)
    (hshort : ∀ {text b : List Char}, Shortest (Language kind) text b → Picked kind text b) :
    Agrees kind (quoted quote) := by
  refine agrees_of_covers (fun h => ⟨quoted_of h, hlanguage.2 (inside_of_quoted hq h)⟩) ?_ hshort
  intro x t hx
  obtain ⟨body, rfl, hbody⟩ := hlanguage.1 hx
  exact ⟨_, t, quoted_covers hq t hbody, Nat.le_refl _⟩

/-- Every class agrees with its language. -/
theorem agrees_of_mem {kind : TokenKind} {read : Reader} (h : (kind, read) ∈ classes) :
    Agrees kind read := by
  simp only [classes, List.mem_cons, Prod.mk.injEq, List.not_mem_nil, or_false] at h
  rcases h with ⟨rfl, rfl⟩ | ⟨rfl, rfl⟩ | ⟨rfl, rfl⟩ | ⟨rfl, rfl⟩ | ⟨rfl, rfl⟩ | ⟨rfl, rfl⟩ |
    ⟨rfl, rfl⟩ | ⟨rfl, rfl⟩ | ⟨rfl, rfl⟩ | ⟨rfl, rfl⟩ | ⟨rfl, rfl⟩ | ⟨rfl, rfl⟩ | ⟨rfl, rfl⟩
  · exact greedy_name?.agrees id
  · exact greedy_scientificHex?.agrees id
  · exact greedy_hexadecimal?.agrees id
  · exact greedy_scientific?.agrees id
  · exact greedy_decimal?.agrees id
  · exact agrees_longComment
  · exact greedy_lineComment?.agrees id
  · exact agrees_longString
  · exact agrees_quoted (by decide) Iff.rfl id
  · exact agrees_quoted (by decide) Iff.rfl id
  · exact greedy_operator?.agrees id
  · have hgreedy : Greedy (Language .whitespace) (run? isBlank) := greedy_run? isBlank
    exact hgreedy.agrees id
  · have hgreedy : Greedy (Language .invalid) (run? isStray) := greedy_run? isStray
    exact hgreedy.agrees id

end LuaLayout.Lexeme
