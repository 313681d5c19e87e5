/-
LuaLayout.Proofs.Lexing.Steady — lexemes that more text does not change.

A lexeme is cut off by looking a little past its end: at the next character, at
an exponent that may still come, at the bracket that would make a comment long.
How far a class looks is bounded by certain characters. A line feed, a quote and
an opening bracket are in no number and in no operator of several characters, so
once one of them stands somewhere behind a lexeme, no class has seen the end of
the text, and the lexeme is the same whatever comes later.

White space and line comments do not fit this pattern: a line feed goes on with
white space, and a bracket may open a comment. They end at the first character
that is not theirs, which is there as soon as anything stands behind them.
-/
import LuaLayout.Proofs.Lexing.Follows

namespace LuaLayout.Lexeme

open Text

/-! ## 1. Characters that stop a class from looking further -/

/-- The character is in no number, and in no operator but itself. -/
def Halts (c : Char) : Prop := c ∈ ['\n', '"', '\'', '[']

instance (c : Char) : Decidable (Halts c) := inferInstanceAs (Decidable (c ∈ _))

namespace Halts

variable {c : Char}

theorem stops (h : Halts c) : Stops c := by
  have hall : ['\n', '"', '\'', '['].all
      (fun d => !isNamePart d && !isDecimalDigit d && d != '.') = true := by decide
  have hc := List.all_eq_true.1 hall c h
  simp only [Bool.and_eq_true, Bool.not_eq_true', bne_iff_ne] at hc
  exact ⟨hc.1.1, hc.1.2, hc.2⟩

theorem ne {d : Char} (h : Halts c) (hd : ¬ Halts d) : c ≠ d := by
  intro heq
  rw [heq] at h
  exact hd h

end Halts

/-- No operator of several characters holds one of these characters. -/
theorem symbols_halting {op : List Char} (hop : op ∈ symbols) {c : Char} (hc : c ∈ op)
    (hhalts : Halts c) : op.length = 1 := by
  have hall : symbols.all
      (fun op => op.length == 1 || op.all fun c => !decide (Halts c)) = true := by decide
  rcases Bool.or_eq_true_iff.1 (List.all_eq_true.1 hall op hop) with hone | hnone
  · exact beq_iff_eq.1 hone
  · have hnot := List.all_eq_true.1 hnone c hc
    simp [hhalts] at hnot

/-! ## 2. Cuts with more text behind them -/

namespace Cut

/-- The cut of a text that goes on. -/
def followed (c : Cut) (more : List Char) : Cut := (c.1, c.2 ++ more)

/-- What a cut does not take it leaves. -/
theorem mem_rest {c : Cut} {text : List Char} {x : Char} (h : c.1 ++ c.2 = text) (hx : x ∈ text)
    (hnot : x ∉ c.1) : x ∈ c.2 := by
  rw [← h] at hx
  exact (List.mem_append.1 hx).resolve_left hnot

end Cut

section

variable {p isDigit : Char → Bool} {text marks : List Char} {x : Char} (more : List Char)

theorem run_followed (hx : x ∈ text) (hp : p x = false) :
    run p (text ++ more) = (run p text).followed more ∧ x ∈ (run p text).2 := by
  induction text with
  | nil => cases hx
  | cons d rest ih =>
    cases hd : p d with
    | false => simpa [run, hd, Cut.followed] using hx
    | true =>
      have hrest : x ∈ rest := by
        refine (List.mem_cons.1 hx).resolve_left ?_
        intro heq
        rw [heq, hd] at hp
        cases hp
      simpa [run, hd, Cut.followed] using ih hrest

theorem run?_followed (hx : x ∈ text) (hp : p x = false) :
    run? p (text ++ more) = (run? p text).map (·.followed more) := by
  have hrun := (run_followed more hx hp).1
  have htake : (text ++ more).takeWhile p = text.takeWhile p := congrArg Prod.fst hrun
  rw [run?, run?, htake, hrun]
  split <;> rfl

theorem mantissa?_followed (hx : x ∈ text) (hdigit : isDigit x = false) (hpoint : x ≠ '.') :
    mantissa? isDigit (text ++ more) = (mantissa? isDigit text).map (·.followed more) := by
  obtain ⟨hrun, hleft⟩ := run_followed more hx hdigit
  have htake : (text ++ more).takeWhile isDigit = text.takeWhile isDigit := congrArg Prod.fst hrun
  have hdrop : (text ++ more).dropWhile isDigit = text.dropWhile isDigit ++ more :=
    congrArg Prod.snd hrun
  have hmem : x ∈ text.dropWhile isDigit := hleft
  unfold mantissa?
  rw [htake, hdrop]
  cases hrest : text.dropWhile isDigit with
  | nil =>
    rw [hrest] at hmem
    cases hmem
  | cons d rest =>
    rw [hrest] at hmem
    by_cases hd : d = '.'
    · subst hd
      have hlater : x ∈ rest := (List.mem_cons.1 hmem).resolve_left hpoint
      cases text.takeWhile isDigit with
      | nil =>
        simp only [List.cons_append, run?_followed more hlater hdigit, Option.map_map]
        rfl
      | cons w ws =>
        simp only [List.cons_append, (run_followed more hlater hdigit).1, Option.map_some]
        rfl
    · cases text.takeWhile isDigit <;> simp [hd, Cut.followed]

/-- A mantissa leaves the characters that it is not made of. -/
theorem mantissa?_leaves {c : Cut} (hx : x ∈ text) (hdigit : isDigit x = false) (hpoint : x ≠ '.')
    (h : mantissa? isDigit text = some c) : x ∈ c.2 := by
  refine Cut.mem_rest (mantissa?_of h).2 hx ?_
  intro hmem
  rcases (isMantissa_of h).mem x hmem with hd | hd
  · rw [hdigit] at hd
    cases hd
  · exact hpoint hd

theorem sign_followed (hx : x ∈ text) (hsign : x ≠ '+' ∧ x ≠ '-') :
    sign (text ++ more) = (sign text).followed more ∧ x ∈ (sign text).2 := by
  have hleft : x ∈ (sign text).2 := by
    refine Cut.mem_rest (sign_append text) hx ?_
    intro hmem
    have hsigns := sign_mem text
    simp only [List.mem_cons, List.not_mem_nil, or_false] at hsigns
    rcases hsigns with h | h | h <;> rw [h] at hmem
    · cases hmem
    · exact hsign.1 (List.mem_singleton.1 hmem)
    · exact hsign.2 (List.mem_singleton.1 hmem)
  refine ⟨?_, hleft⟩
  cases text with
  | nil => cases hx
  | cons d rest =>
    by_cases hplus : d = '+'
    · subst hplus
      rfl
    by_cases hminus : d = '-'
    · subst hminus
      rfl
    simp [sign, hplus, hminus, Cut.followed]

theorem exponent?_followed (hx : x ∈ text) (hstops : Stops x) (hsign : x ≠ '+' ∧ x ≠ '-')
    (hmark : x ∉ marks) :
    exponent? marks (text ++ more) = (exponent? marks text).map (·.followed more) := by
  cases text with
  | nil => cases hx
  | cons d rest =>
    rw [List.cons_append, exponent?, exponent?]
    by_cases hd : marks.contains d = true
    · have hrest : x ∈ rest := by
        refine (List.mem_cons.1 hx).resolve_left ?_
        intro heq
        exact hmark (heq ▸ List.contains_iff_mem.1 hd)
      obtain ⟨hfollowed, hleft⟩ := sign_followed more hrest hsign
      rw [if_pos hd, if_pos hd, hfollowed]
      have hrun : run? isDecimalDigit ((sign rest).2 ++ more) = _ :=
        run?_followed more hleft hstops.digit
      simp only [Cut.followed, hrun, Option.map_map]
      rfl
    · rw [if_neg hd, if_neg hd]
      rfl

theorem withExponent?_followed {c : Cut} (hx : x ∈ c.2) (hstops : Stops x)
    (hsign : x ≠ '+' ∧ x ≠ '-') (hmark : x ∉ marks) :
    withExponent? marks (c.followed more) = (withExponent? marks c).map (·.followed more) := by
  have hexponent : exponent? marks (c.2 ++ more) = _ :=
    exponent?_followed more hx hstops hsign hmark
  simp only [withExponent?, Cut.followed, hexponent, Option.map_map]
  rfl

end

/-! ## 3. Numbers and openers -/

section

variable {text : List Char} {c : Char} (more : List Char)

theorem not_sign (hc : Halts c) : c ≠ '+' ∧ c ≠ '-' := ⟨hc.ne (by decide), hc.ne (by decide)⟩

theorem decimal?_followed (hmem : c ∈ text) (hc : Halts c) :
    decimal? (text ++ more) = (decimal? text).map (·.followed more) :=
  mantissa?_followed more hmem hc.stops.digit hc.stops.point

theorem hexadecimal?_followed (hmem : c ∈ text) (hc : Halts c) :
    hexadecimal? (text ++ more) = (hexadecimal? text).map (·.followed more) := by
  have hzero : c ≠ '0' := hc.ne (by decide)
  have hx : c ≠ 'x' ∧ c ≠ 'X' := ⟨hc.ne (by decide), hc.ne (by decide)⟩
  match text, hmem with
  | [d], hmem =>
    obtain rfl : c = d := List.mem_singleton.1 hmem
    cases more <;> simp [hexadecimal?, hzero]
  | d :: y :: rest, hmem =>
    by_cases hd : d = '0'
    · subst hd
      rw [List.cons_append, List.cons_append, hexadecimal?, hexadecimal?]
      by_cases hy : (y == 'x' || y == 'X') = true
      · have hrest : c ∈ rest := by
          refine (List.mem_cons.1 ((List.mem_cons.1 hmem).resolve_left hzero)).resolve_left ?_
          intro heq
          simp only [Bool.or_eq_true, beq_iff_eq] at hy
          exact hy.elim (fun h => hx.1 (heq.trans h)) fun h => hx.2 (heq.trans h)
        rw [if_pos hy, if_pos hy, mantissa?_followed more hrest hc.stops.hex hc.stops.point,
          Option.map_map, Option.map_map]
        rfl
      · rw [if_neg hy, if_neg hy]
        rfl
    · simp [hexadecimal?, hd]

/-- A hexadecimal number leaves the characters that halt. -/
theorem hexadecimal?_leaves {d : Cut} (hmem : c ∈ text) (hc : Halts c)
    (h : hexadecimal? text = some d) : c ∈ d.2 := by
  refine Cut.mem_rest (hexadecimal?_of h).2 hmem ?_
  intro htaken
  obtain ⟨x, m, hd, hx, hm⟩ := isLexeme_hexadecimal (r := d.2) h
  rw [hd, List.mem_cons, List.mem_cons] at htaken
  rcases htaken with rfl | rfl | hdigit
  · exact absurd hc (by decide)
  · revert hc
    rcases List.mem_cons.1 hx with rfl | hx
    · decide
    · rw [List.mem_singleton.1 hx]
      decide
  · rcases hm.mem c hdigit with hd | hd
    · rw [hc.stops.hex] at hd
      cases hd
    · exact hc.stops.point hd

theorem scientific?_followed (hmem : c ∈ text) (hc : Halts c) :
    scientific? (text ++ more) = (scientific? text).map (·.followed more) := by
  rw [scientific?, scientific?, decimal?_followed more hmem hc]
  cases h : decimal? text with
  | none => rfl
  | some d =>
    have hleft := mantissa?_leaves hmem hc.stops.digit hc.stops.point h
    exact withExponent?_followed more hleft hc.stops (not_sign hc) fun hmark =>
      absurd hc (by
        simp only [List.mem_cons, List.not_mem_nil, or_false] at hmark
        rcases hmark with rfl | rfl <;> decide)

theorem scientificHex?_followed (hmem : c ∈ text) (hc : Halts c) :
    scientificHex? (text ++ more) = (scientificHex? text).map (·.followed more) := by
  rw [scientificHex?, scientificHex?, hexadecimal?_followed more hmem hc]
  cases h : hexadecimal? text with
  | none => rfl
  | some d =>
    exact withExponent?_followed more (hexadecimal?_leaves hmem hc h) hc.stops (not_sign hc)
      fun hmark => absurd hc (by
        simp only [List.mem_cons, List.not_mem_nil, or_false] at hmark
        rcases hmark with rfl | rfl <;> decide)

/-- A bracket opens a long one or not as soon as something else than the signs
of its level has come. -/
theorem longOpener?_followed {d x : Char} {rest : List Char} (hx : x ∈ rest) (hequals : x ≠ '=') :
    longOpener? (d :: rest ++ more) =
      (longOpener? (d :: rest)).map fun found => (found.1, found.2 ++ more) := by
  by_cases hd : d = '['
  · subst hd
    obtain ⟨hrun, hleft⟩ := run_followed (p := (· == '=')) more hx (by simpa using hequals)
    have htake : (rest ++ more).takeWhile (· == '=') = rest.takeWhile (· == '=') :=
      congrArg Prod.fst hrun
    have hdrop : (rest ++ more).dropWhile (· == '=') = rest.dropWhile (· == '=') ++ more :=
      congrArg Prod.snd hrun
    have hmem : x ∈ rest.dropWhile (· == '=') := hleft
    simp only [List.cons_append, longOpener?, htake, hdrop]
    cases hrest : rest.dropWhile (· == '=') with
    | nil =>
      rw [hrest] at hmem
      cases hmem
    | cons e tail => by_cases he : e = '[' <;> simp [he]
  · simp [longOpener?, hd]

theorem operatorOf?_followed {d : Char} {rest : List Char} (hmem : c ∈ rest) (hc : Halts c) (n : Nat) :
    operatorOf? (d :: rest ++ more) n = (operatorOf? (d :: rest) n).map (·.followed more) := by
  by_cases hlength : n ≤ (d :: rest).length
  · simp only [operatorOf?, List.take_append_of_le_length hlength,
      List.drop_append_of_le_length hlength]
    split <;> rfl
  · -- Fewer characters than asked for: one that halts is among them, and not alone.
    have hnone : ∀ tail : List Char, operatorOf? (d :: rest ++ tail) n = none := by
      intro tail
      unfold operatorOf?
      rw [if_neg]
      intro hop
      have htake : (d :: rest ++ tail).take n = d :: rest ++ tail.take (n - (d :: rest).length) := by
        rw [List.take_append, List.take_of_length_le (by omega)]
      rw [htake] at hop
      have hone := symbols_halting (isLexeme_operator.1 hop) (by simp [hmem]) hc
      have hpos := List.length_pos_of_mem hmem
      simp only [List.length_append, List.length_cons] at hone
      omega
    have hself := hnone []
    rw [List.append_nil] at hself
    rw [hnone, hself]
    rfl

theorem operator?_followed {d : Char} {rest : List Char} (hmem : c ∈ rest) (hc : Halts c) :
    operator? (d :: rest ++ more) = (operator? (d :: rest)).map (·.followed more) := by
  have hstep := fun n => operatorOf?_followed more (d := d) hmem hc n
  simp only [operator?, List.findSome?_cons, List.findSome?_nil, hstep]
  cases operatorOf? (d :: rest) 3 with
  | some cut => rfl
  | none =>
    cases operatorOf? (d :: rest) 2 with
    | some cut => rfl
    | none => cases operatorOf? (d :: rest) 1 <;> rfl

end

/-! ## 4. Classes that still do not apply -/

section

variable {text rest : List Char} {c d : Char} (more : List Char)

theorem name?_none_followed (h : name? (d :: rest) = none) : name? (d :: rest ++ more) = none := by
  unfold name? at h ⊢
  split at h
  · next heq =>
    cases heq
    split at h
    · cases h
    · next hd => simp [hd]
  · next heq => cases heq

theorem lineComment?_none_followed (hrest : rest ≠ []) (h : lineComment? (d :: rest) = none) :
    lineComment? (d :: rest ++ more) = none := by
  obtain ⟨e, tail, rfl⟩ := List.exists_cons_of_ne_nil hrest
  refine lineComment?_eq_none _ ?_
  intro hd heq
  obtain rfl : e = '-' := Option.some.inj heq
  rw [hd] at h
  cases h

theorem quoted_none_followed {quote : Char} (h : quoted quote (d :: rest) = none) :
    quoted quote (d :: rest ++ more) = none := by
  refine quoted_eq_none _ ?_
  rintro rfl
  have hsome := quoted_isSome d rest
  rw [h] at hsome
  cases hsome

theorem closed_none_followed {cut? : List Char → Option Cut}
    (hcut : cut? (text ++ more) = (cut? text).map (·.followed more))
    (h : closed cut? text = none) : closed cut? (text ++ more) = none := by
  rw [closed, Option.map_eq_none_iff] at h
  rw [closed, hcut, h]
  rfl

/-- A text that opens no long comment opens none later if its first line has ended. -/
theorem longComment_none_followed (hrest : rest ≠ [])
    (hline : ∀ body, d :: rest = '-' :: '-' :: body → ∃ e ∈ body, isLineEnd e = true)
    (h : longComment (d :: rest) = none) : longComment (d :: rest ++ more) = none := by
  obtain ⟨e, tail, rfl⟩ := List.exists_cons_of_ne_nil hrest
  by_cases hopens : d = '-' ∧ e = '-'
  · obtain ⟨rfl, rfl⟩ := hopens
    obtain ⟨x, hx, hend⟩ := hline tail rfl
    have hopener : longOpener? tail = none := by
      simpa [longComment, longString] using h
    have hmore : longOpener? (tail ++ more) = none := by
      obtain ⟨y, ys, rfl⟩ := List.exists_cons_of_ne_nil (List.ne_nil_of_mem hx)
      have hequals : x ≠ '=' := by rintro rfl; cases hend
      rcases List.mem_cons.1 hx with rfl | hys
      · have hbracket : x ≠ '[' := by rintro rfl; cases hend
        simp [longOpener?, hbracket]
      · rw [longOpener?_followed more hys hequals, hopener]
        rfl
    simp [longComment, longString, hmore]
  · refine longComment_eq_none_of _ ?_
    intro hd heq
    exact hopens ⟨hd, Option.some.inj heq⟩

/-- Neither a name nor a number begins to stand here. -/
theorem numeric_none_followed (hmem : c ∈ d :: rest) (hc : Halts c) :
    ∀ p ∈ classes.take 5, p.2 (d :: rest) = none → p.2 (d :: rest ++ more) = none := by
  simp only [classes, List.take_succ_cons, List.take_zero, List.forall_mem_cons]
  refine ⟨?_, closed_none_followed more (scientificHex?_followed more hmem hc),
    closed_none_followed more (hexadecimal?_followed more hmem hc),
    closed_none_followed more (scientific?_followed more hmem hc),
    closed_none_followed more (decimal?_followed more hmem hc), by simp⟩
  intro hnone
  exact closed_eq_none (name?_none_followed more (Option.map_eq_none_iff.1 hnone))

/-- No class before the last begins to apply when more text comes behind a
character that halts. -/
theorem none_followed (hmem : c ∈ rest) (hc : Halts c)
    (hline : ∀ body, d :: rest = '-' :: '-' :: body → ∃ e ∈ body, isLineEnd e = true) :
    ∀ p ∈ classes.take 12, p.2 (d :: rest) = none → p.2 (d :: rest ++ more) = none := by
  have hrest : rest ≠ [] := List.ne_nil_of_mem hmem
  have hsplit : classes.take 12 = classes.take 5 ++
      [(.blockComment, longComment), (.lineComment, closed lineComment?),
        (.blockQuote, longString), (.doubleQuoted, quoted '"'), (.singleQuoted, quoted '\''),
        (.operator, closed operator?), (.whitespace, closed whitespace?)] := rfl
  rw [hsplit, List.forall_mem_append]
  refine ⟨numeric_none_followed more (List.mem_cons_of_mem _ hmem) hc, ?_⟩
  simp only [List.forall_mem_cons]
  refine ⟨longComment_none_followed more hrest hline, ?_, ?_, quoted_none_followed more,
    quoted_none_followed more, closed_none_followed more (operator?_followed more hmem hc), ?_,
    by simp⟩
  · intro hnone
    exact closed_eq_none (lineComment?_none_followed more hrest (Option.map_eq_none_iff.1 hnone))
  · intro hnone
    rw [longString, Option.map_eq_none_iff] at hnone ⊢
    rw [longOpener?_followed more hmem (hc.ne (by decide)), hnone]
    rfl
  · intro hnone
    have hd : isBlank d = false := by
      cases hd : isBlank d with
      | false => rfl
      | true =>
        have hsome := run?_isSome rest hd
        rw [closed, Option.map_eq_none_iff, whitespace?] at hnone
        rw [hnone] at hsome
        cases hsome
    exact closed_eq_none (run?_eq_none (by simpa using hd))

end

/-! ## 5. The first class that applies -/

/-- The class that applies, by its place, and those before it that do not. -/
theorem place_of_first? {text : List Char} {kind : TokenKind} {r : Reading}
    (h : first? text = some (kind, r)) :
    ∃ i read, classes[i]? = some (kind, read) ∧ (∀ p ∈ classes.take i, p.2 text = none) ∧
      read text = some r := by
  obtain ⟨before, ⟨kind', read⟩, after, hclasses, hread, hbefore⟩ :=
    List.findSome?_eq_some_iff.1 h
  obtain ⟨r', hr', hp⟩ := Option.map_eq_some_iff.1 hread
  cases hp
  refine ⟨before.length, read, by simp [hclasses], ?_, hr'⟩
  intro p hp
  rw [hclasses, List.take_left] at hp
  simpa using hbefore p hp

section

variable {text b r : List Char} {kind : TokenKind} {c : Char} (more : List Char)

/-- A run that something stands behind ends there, whatever comes later. -/
theorem run_found_followed {p : Char → Bool} {d : Char} (h : (run p text).2 = d :: r) :
    p d = false ∧ run p (text ++ more) = ((run p text).1, d :: r ++ more) := by
  have hdrop : text.dropWhile p = d :: r := h
  have hd : p d = false := by
    have hhead := List.head?_dropWhile_not p text
    rw [hdrop] at hhead
    simpa using hhead
  have hsplit : (run p text).1 ++ d :: r = text := by rw [← h, run_append]
  have hbody : ∀ x ∈ (run p text).1, p x = true :=
    fun x hx => List.all_eq_true.1 List.all_takeWhile x hx
  have hstop := run_stop (r := d :: r ++ more) hbody (by simpa using hd)
  rw [← List.append_assoc, hsplit] at hstop
  exact ⟨hd, hstop⟩

theorem run?_found_followed {p : Char → Bool} {d : Char} (h : run? p text = some (b, d :: r)) :
    run? p (text ++ more) = some (b, d :: r ++ more) := by
  have hrun : run p text = (b, d :: r) := by
    unfold run? at h
    split at h
    · cases h
    · exact Option.some.inj h
  obtain ⟨hd, -⟩ := run_found_followed more (congrArg Prod.snd hrun)
  have hstop := run?_stop (r := d :: r ++ more) (mem_of_run? h).1 (mem_of_run? h).2
    (by simpa using hd)
  have htext := run_append p text
  rw [hrun] at htext
  rwa [← htext, List.append_assoc]

theorem name?_found_followed {d : Char} (h : name? text = some (b, d :: r)) :
    name? (text ++ more) = some (b, d :: r ++ more) := by
  unfold name? at h
  split at h
  · next x rest =>
    split at h
    · next hx =>
      obtain ⟨hbody, hrest⟩ := Prod.mk.inj (Option.some.inj h)
      rw [List.cons_append, name?, if_pos hx, (run_found_followed more hrest).2, ← hbody]
      rfl
    · cases h
  · cases h

theorem lineComment?_found_followed {d : Char} (h : lineComment? text = some (b, d :: r)) :
    isLineEnd d = true ∧ lineComment? (text ++ more) = some (b, d :: r ++ more) := by
  unfold lineComment? at h
  split at h
  · next rest =>
    obtain ⟨hbody, hrest⟩ := Prod.mk.inj (Option.some.inj h)
    obtain ⟨hd, hfollowed⟩ := run_found_followed more hrest
    refine ⟨by simpa using hd, ?_⟩
    rw [List.cons_append, List.cons_append, lineComment?, hfollowed, ← hbody]
    rfl
  · cases h

/-- A cut of a class that looks no further than the text. -/
theorem closed_found_followed {cut? : List Char → Option Cut}
    (hcut : cut? (text ++ more) = (cut? text).map (·.followed more))
    (h : closed cut? text = some (.found b r)) :
    closed cut? (text ++ more) = some (.found b (r ++ more)) := by
  rw [found_of_closed h] at hcut
  exact closed_found hcut

theorem lineComment_mem_take : (.lineComment, closed lineComment?) ∈ classes.take 7 := by
  simp [classes]

/-- A lexeme that a halting character stands behind is cut off from every text
that goes on. -/
theorem first?_followed (h : first? text = some (kind, .found b r)) (hmem : c ∈ r) (hc : Halts c) :
    first? (text ++ more) = some (kind, .found b (r ++ more)) := by
  have hcut : Cut.Of (b, r) text := first?_of h
  have hlexeme := isLexeme_of_first? h
  have htext : b ++ r = text := hcut.2
  obtain ⟨e, tail, rfl⟩ := List.exists_cons_of_ne_nil (List.ne_nil_of_mem hmem)
  obtain ⟨d, rest, rfl, hrest⟩ : ∃ d rest, text = d :: rest ∧ c ∈ rest := by
    obtain ⟨x, xs, hb⟩ := List.exists_cons_of_ne_nil hcut.1
    have hb' : b = x :: xs := hb
    exact ⟨x, xs ++ e :: tail, by rw [← htext, hb']; rfl, List.mem_append_right _ hmem⟩
  have hall : c ∈ d :: rest := List.mem_cons_of_mem _ hrest
  obtain ⟨i, read, hclass, hbefore, hread⟩ := place_of_first? h
  have hnumeric : ∀ j ≤ 5, (∀ p ∈ classes.take j, p.2 (d :: rest) = none) →
      ∀ p ∈ classes.take j, p.2 (d :: rest ++ more) = none :=
    fun j hj hnone p hp => numeric_none_followed more hall hc p
      (List.take_subset_take_left _ hj hp) (hnone p hp)
  have hearlier : ∀ j ≤ 12, (∀ body, d :: rest = '-' :: '-' :: body →
        ∃ x ∈ body, isLineEnd x = true) → (∀ p ∈ classes.take j, p.2 (d :: rest) = none) →
      ∀ p ∈ classes.take j, p.2 (d :: rest ++ more) = none :=
    fun j hj hline hnone p hp => none_followed more hrest hc hline p
      (List.take_subset_take_left _ hj hp) (hnone p hp)
  -- After the class of line comments, none of them stands here.
  have hnoline : 7 ≤ i → ∀ body, d :: rest = '-' :: '-' :: body →
      ∃ x ∈ body, isLineEnd x = true := by
    intro hi body heq
    have hnone := hbefore _ (List.take_subset_take_left classes hi lineComment_mem_take)
    rw [heq] at hnone
    cases hnone
  match i, hclass with
  | 0, rfl =>
    exact first?_of_class 0 rfl (hnumeric 0 (by omega) hbefore)
      (closed_found (name?_found_followed more (found_of_closed hread)))
  | 1, rfl =>
    exact first?_of_class 1 rfl (hnumeric 1 (by omega) hbefore)
      (closed_found_followed more (scientificHex?_followed more hall hc) hread)
  | 2, rfl =>
    exact first?_of_class 2 rfl (hnumeric 2 (by omega) hbefore)
      (closed_found_followed more (hexadecimal?_followed more hall hc) hread)
  | 3, rfl =>
    exact first?_of_class 3 rfl (hnumeric 3 (by omega) hbefore)
      (closed_found_followed more (scientific?_followed more hall hc) hread)
  | 4, rfl =>
    exact first?_of_class 4 rfl (hnumeric 4 (by omega) hbefore)
      (closed_found_followed more (decimal?_followed more hall hc) hread)
  | 5, rfl => rw [← htext, List.append_assoc]; exact first?_blockComment _ hlexeme
  | 6, rfl =>
    obtain ⟨hend, hfollowed⟩ := lineComment?_found_followed more (found_of_closed hread)
    refine first?_of_class 6 rfl (hearlier 6 (by omega) ?_ hbefore) (closed_found hfollowed)
    intro body heq
    obtain ⟨comment, rfl, -⟩ := hlexeme
    simp only [← htext, List.cons_append, List.cons.injEq, true_and] at heq
    exact ⟨e, by rw [← heq]; simp, hend⟩
  | 7, rfl => rw [← htext, List.append_assoc]; exact first?_blockQuote _ hlexeme
  | 8, rfl => rw [← htext, List.append_assoc]; exact first?_doubleQuoted _ hlexeme
  | 9, rfl => rw [← htext, List.append_assoc]; exact first?_singleQuoted _ hlexeme
  | 10, rfl =>
    exact first?_of_class 10 rfl (hearlier 10 (by omega) (hnoline (by omega)) hbefore)
      (closed_found_followed more (operator?_followed more hrest hc) hread)
  | 11, rfl =>
    exact first?_of_class 11 rfl (hearlier 11 (by omega) (hnoline (by omega)) hbefore)
      (closed_found (run?_found_followed more (found_of_closed hread)))
  | 12, rfl =>
    exact first?_of_class 12 rfl (hearlier 12 (by omega) (hnoline (by omega)) hbefore)
      (closed_found (run?_found_followed more (found_of_closed hread)))

end

end LuaLayout.Lexeme
