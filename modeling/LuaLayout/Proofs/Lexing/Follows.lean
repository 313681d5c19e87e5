/-
LuaLayout.Proofs.Lexing.Follows — what may follow a lexeme.

`Follows` says of a lexeme and a character that the lexeme ends before it. A
lexeme and a character that follows it are enough to cut the lexeme off again,
in any text. At the end of a text nothing follows, and every lexeme but a stray
one is cut off there.

The order of the classes is what makes the conditions necessary: a minus before
a minus opens a comment, a bracket before a bracket a long string, and a point
before a digit a number.
-/
import LuaLayout.Proofs.Lexing.Lexemes

namespace LuaLayout.Lexeme

open Text

/-! ## 1. What may follow a lexeme -/

/-- The characters form no longer operator with the next one, nor the beginning
of a number, a comment or a long bracket. -/
structure Parts (b : List Char) (c : Char) : Prop where
  operator : Vocabulary.allOperators.all (fun op => !(b ++ [c]).isPrefixOf op.toList) = true
  number : b = ['.'] → isDecimalDigit c = false
  comment : b = ['-'] → c ≠ '-'
  bracket : b = ['['] → c ≠ '[' ∧ c ≠ '='

/-- The lexeme ends before the character. White space is asked about only where
it is made of spaces and line feeds. -/
def Follows : TokenKind → List Char → Char → Prop
  | .name, _, c => isNamePart c = false
  | .sciHexNumber, _, c => Stops c
  | .hexNumber, _, c => Stops c
  | .sciNumber, _, c => Stops c
  | .number, _, c => Stops c
  | .blockComment, _, _ => True
  | .lineComment, _, c => c = '\n'
  | .blockQuote, _, _ => True
  | .doubleQuoted, _, _ => True
  | .singleQuoted, _, _ => True
  | .operator, b, c => Parts b c
  | .whitespace, b, c => (∀ x ∈ b, x = ' ' ∨ x = '\n') ∧ isBlank c = false
  | _, _, _ => False

/-! ## 2. Classes that do not apply -/

theorem name?_eq_none {d : Char} (rest : List Char) (h : isNameStart d = false) :
    name? (d :: rest) = none := by
  simp [name?, h]

theorem decimal?_eq_none {d : Char} (rest : List Char) (h : isDecimalDigit d = false)
    (hpoint : d = '.' → run? isDecimalDigit rest = none) : decimal? (d :: rest) = none := by
  unfold decimal? mantissa?
  rw [List.takeWhile_cons_of_neg (by simp [h]), List.dropWhile_cons_of_neg (by simp [h])]
  split
  · next heq =>
    cases heq
    rw [hpoint rfl]
    rfl
  · rfl
  · next hne => exact absurd rfl hne
  · next hne _ _ => exact absurd rfl hne

theorem hexadecimal?_eq_none {d : Char} (rest : List Char)
    (h : ∀ x ∈ rest.head?, x ∉ hexMarks) : hexadecimal? (d :: rest) = none := by
  unfold hexadecimal?
  split
  · next x tail heq =>
    cases heq
    have hx : x ∉ hexMarks := h x rfl
    rw [if_neg]
    simpa [hexMarks] using hx
  · rfl

theorem scientificHex?_eq_none {text : List Char} (h : hexadecimal? text = none) :
    scientificHex? text = none := by
  rw [scientificHex?, h, Option.bind_none]

theorem scientific?_eq_none {text : List Char} (h : decimal? text = none) :
    scientific? text = none := by
  rw [scientific?, h, Option.bind_none]

theorem longComment_eq_none_of {d : Char} (rest : List Char) (h : d = '-' → rest.head? ≠ some '-') :
    longComment (d :: rest) = none := by
  unfold longComment
  split
  · next heq =>
    cases heq
    exact absurd rfl (h rfl)
  · rfl

theorem lineComment?_eq_none {d : Char} (rest : List Char) (h : d = '-' → rest.head? ≠ some '-') :
    lineComment? (d :: rest) = none := by
  unfold lineComment?
  split
  · next heq =>
    cases heq
    exact absurd rfl (h rfl)
  · rfl

theorem longString_eq_none {d : Char} (rest : List Char)
    (h : d = '[' → ∀ x ∈ rest.head?, x ≠ '[' ∧ x ≠ '=') : longString (d :: rest) = none := by
  rw [longString, Option.map_eq_none_iff]
  unfold longOpener?
  split
  · next tail heq =>
    cases heq
    cases rest with
    | nil => rfl
    | cons x tail =>
      obtain ⟨hopen, hequals⟩ := h rfl x rfl
      rw [List.dropWhile_cons_of_neg (by simpa using hequals)]
      split
      · next heq => cases heq; exact absurd rfl hopen
      · rfl
  · rfl

theorem quoted_eq_none {d quote : Char} (rest : List Char) (h : d ≠ quote) :
    quoted quote (d :: rest) = none := by
  rw [quoted, if_neg (by simpa using h)]

/-! ## 3. Cutting a lexeme off again -/

/-- A class applies where those before it do not. -/
theorem first?_of_class {kind : TokenKind} {read : Reader} {text : List Char} {r : Reading}
    (i : Nat) (hclass : classes[i]? = some (kind, read))
    (hbefore : ∀ p ∈ classes.take i, p.2 text = none) (hread : read text = some r) :
    first? text = some (kind, r) := by
  obtain ⟨hi, hget⟩ := List.getElem?_eq_some_iff.1 hclass
  refine List.findSome?_eq_some_iff.2 ⟨classes.take i, (kind, read), classes.drop (i + 1), ?_, ?_, ?_⟩
  · rw [← hget, ← List.drop_eq_getElem_cons hi, List.take_append_drop]
  · simp [hread]
  · intro p hp
    simp [hbefore p hp]

/-- A class that does not apply either joins those before it. -/
theorem none_succ {kind : TokenKind} {read : Reader} {text : List Char} (i : Nat)
    (hclass : classes[i]? = some (kind, read)) (hbefore : ∀ p ∈ classes.take i, p.2 text = none)
    (hnone : read text = none) : ∀ p ∈ classes.take (i + 1), p.2 text = none := by
  rw [List.take_add_one, hclass, List.forall_mem_append]
  exact ⟨hbefore, List.forall_mem_singleton.2 hnone⟩

theorem closed_found {cut? : List Char → Option Cut} {text b r : List Char}
    (h : cut? text = some (b, r)) : closed cut? text = some (.found b r) := by
  rw [closed, h]
  rfl

theorem closed_eq_none {cut? : List Char → Option Cut} {text : List Char} (h : cut? text = none) :
    closed cut? text = none := by
  rw [closed, h, Option.map_none]

/-- Neither a name nor a number stands here. -/
theorem not_numeric {text : List Char} (hname : name? text = none)
    (hhex : hexadecimal? text = none) (hdecimal : decimal? text = none) :
    ∀ p ∈ classes.take 5, p.2 text = none := by
  simp only [classes, List.take_succ_cons, List.take_zero, List.forall_mem_cons]
  exact ⟨closed_eq_none hname, closed_eq_none (scientificHex?_eq_none hhex), closed_eq_none hhex,
    closed_eq_none (scientific?_eq_none hdecimal), closed_eq_none hdecimal, by simp⟩

section

variable {b r : List Char}

theorem first?_name (hb : IsLexeme .name b) (hr : ∀ c ∈ r.head?, isNamePart c = false) :
    first? (b ++ r) = some (.name, .found b r) := by
  obtain ⟨d, rest, rfl, hd, hrest⟩ := hb
  refine first?_of_class 0 rfl (by simp) (closed_found ?_)
  rw [List.cons_append, name?, if_pos hd, run_stop hrest hr]
  rfl

theorem hexadecimal?_stop {x : Char} {m : List Char} (hx : x ∈ hexMarks)
    (hm : IsMantissa isHexDigit m) (hr : ∀ c ∈ r.head?, isHexDigit c = false ∧ c ≠ '.') :
    hexadecimal? ('0' :: x :: m ++ r) = some ('0' :: x :: m, r) := by
  rw [List.cons_append, List.cons_append, hexadecimal?, if_pos (by simpa [hexMarks] using hx),
    mantissa?_stop hm (by decide) hr]
  rfl

theorem first?_sciHexNumber (hb : IsLexeme .sciHexNumber b) (hr : ∀ c ∈ r.head?, Stops c) :
    first? (b ++ r) = some (.sciHexNumber, .found b r) := by
  obtain ⟨x, m, e, rfl, hx, hm, he⟩ := hb
  refine first?_of_class 1 rfl ?_ (closed_found ?_)
  · simpa [classes, closed] using name?_eq_none _ (by decide)
  · have hexponent := exponent?_stop he fun c hc => (hr c hc).digit
    obtain ⟨mark, signs, digits, hmark, -, -, -⟩ := he
    have hstop : isHexDigit mark = false ∧ mark ≠ '.' := by
      simp only [List.mem_cons, List.not_mem_nil, or_false] at hmark
      rcases hmark with rfl | rfl <;> decide
    have hhex := hexadecimal?_stop (r := mark :: (signs ++ digits ++ r)) hx hm (by simpa using hstop)
    simp only [List.cons_append, List.append_assoc] at hhex hexponent ⊢
    rw [scientificHex?, hhex, Option.bind_some, withExponent?, hexponent]
    simp [Cut.prepend]

theorem first?_hexNumber (hb : IsLexeme .hexNumber b) (hr : ∀ c ∈ r.head?, Stops c) :
    first? (b ++ r) = some (.hexNumber, .found b r) := by
  obtain ⟨x, m, rfl, hx, hm⟩ := hb
  have hhex := hexadecimal?_stop hx hm fun c hc => ⟨(hr c hc).hex, (hr c hc).point⟩
  refine first?_of_class 2 rfl ?_ (closed_found hhex)
  have hmark : ∀ c ∈ r.head?, c ∉ ['p', 'P'] := by
    intro c hc
    simp [(hr c hc).not_letter (d := 'p') (by decide), (hr c hc).not_letter (d := 'P') (by decide)]
  have hsci : scientificHex? ('0' :: x :: m ++ r) = none := by
    rw [scientificHex?, hhex, Option.bind_some, withExponent?, exponent?_eq_none hmark,
      Option.map_none]
  simp only [classes, List.take_succ_cons, List.take_zero, List.forall_mem_cons]
  exact ⟨closed_eq_none (name?_eq_none _ (by decide)), closed_eq_none hsci, by simp⟩

/-- A decimal mantissa is no name, and no hexadecimal number where no mark of one follows. -/
theorem IsMantissa.not_hexadecimal {m : List Char} (hm : IsMantissa isDecimalDigit m)
    (tail : List Char) (htail : ∀ x ∈ tail.head?, x ∉ hexMarks) :
    name? (m ++ tail) = none ∧ hexadecimal? (m ++ tail) = none := by
  obtain ⟨d, rest, rfl, hd⟩ := hm.starts
  have hname : isNameStart d = false := by
    rcases hd with hd | rfl
    · exact not_isNameStart_of_isDecimalDigit hd
    · decide
  refine ⟨name?_eq_none _ hname, hexadecimal?_eq_none _ fun x hx => ?_⟩
  cases rest with
  | nil => exact htail x hx
  | cons y rest =>
    obtain rfl : y = x := by simpa using hx
    intro hmark
    simp only [hexMarks, List.mem_cons, List.not_mem_nil, or_false] at hmark
    have hmem := hm.mem y (by simp)
    rcases hmark with rfl | rfl <;> exact absurd hmem (by decide)

theorem first?_sciNumber (hb : IsLexeme .sciNumber b) (hr : ∀ c ∈ r.head?, Stops c) :
    first? (b ++ r) = some (.sciNumber, .found b r) := by
  obtain ⟨m, e, rfl, hm, he⟩ := hb
  have hexponent := exponent?_stop he fun c hc => (hr c hc).digit
  obtain ⟨mark, signs, digits, hmark, -, -, -⟩ := he
  have hstop : (isDecimalDigit mark = false ∧ mark ≠ '.') ∧ mark ∉ hexMarks := by
    simp only [List.mem_cons, List.not_mem_nil, or_false] at hmark
    rcases hmark with rfl | rfl <;> decide
  obtain ⟨hname, hhex⟩ := hm.not_hexadecimal (mark :: (signs ++ digits ++ r))
    (by simpa using hstop.2)
  have hdecimal := mantissa?_stop (r := mark :: (signs ++ digits ++ r)) hm (by decide)
    (by simpa using hstop.1)
  simp only [List.cons_append, List.append_assoc] at hname hhex hdecimal hexponent ⊢
  refine first?_of_class 3 rfl ?_ (closed_found ?_)
  · simp only [classes, List.take_succ_cons, List.take_zero, List.forall_mem_cons]
    exact ⟨closed_eq_none hname, closed_eq_none (scientificHex?_eq_none hhex),
      closed_eq_none hhex, by simp⟩
  · rw [scientific?, decimal?, hdecimal, Option.bind_some, withExponent?, hexponent]
    simp [Cut.prepend]

theorem first?_number (hb : IsLexeme .number b) (hr : ∀ c ∈ r.head?, Stops c) :
    first? (b ++ r) = some (.number, .found b r) := by
  have hm : IsMantissa isDecimalDigit b := hb
  have hdecimal := mantissa?_stop hm (by decide) fun c hc => ⟨(hr c hc).digit, (hr c hc).point⟩
  have hmark : ∀ c ∈ r.head?, c ∉ ['e', 'E'] ∧ c ∉ hexMarks := by
    intro c hc
    simp [hexMarks, (hr c hc).not_letter (d := 'e') (by decide),
      (hr c hc).not_letter (d := 'E') (by decide), (hr c hc).not_letter (d := 'x') (by decide),
      (hr c hc).not_letter (d := 'X') (by decide)]
  obtain ⟨hname, hhex⟩ := hm.not_hexadecimal r fun c hc => (hmark c hc).2
  refine first?_of_class 4 rfl ?_ (closed_found hdecimal)
  have hsci : scientific? (b ++ r) = none := by
    rw [scientific?, decimal?, hdecimal, Option.bind_some, withExponent?,
      exponent?_eq_none fun c hc => (hmark c hc).1, Option.map_none]
  simp only [classes, List.take_succ_cons, List.take_zero, List.forall_mem_cons]
  exact ⟨closed_eq_none hname, closed_eq_none (scientificHex?_eq_none hhex),
    closed_eq_none hhex, closed_eq_none hsci, by simp⟩

/-- A character that begins neither a name nor a number. -/
theorem not_numeric_of {d : Char} (rest : List Char) (hname : isNameStart d = false)
    (hdigit : isDecimalDigit d = false) (hpoint : d = '.' → run? isDecimalDigit rest = none) :
    ∀ p ∈ classes.take 5, p.2 (d :: rest) = none := by
  refine not_numeric (name?_eq_none _ hname) ?_ (decimal?_eq_none _ hdigit hpoint)
  unfold hexadecimal?
  split
  · next heq =>
    cases heq
    exact absurd hdigit (by decide)
  · rfl

theorem first?_blockComment (r : List Char) (hb : IsLexeme .blockComment b) :
    first? (b ++ r) = some (.blockComment, .found b r) := by
  obtain ⟨body, rfl, hbody⟩ := hb
  refine first?_of_class 5 rfl (not_numeric_of _ (by decide) (by decide) nofun) ?_
  rw [List.cons_append, List.cons_append, longComment, longString_append r hbody]
  rfl

theorem first?_lineComment (hb : IsLexeme .lineComment b) (hr : ∀ c ∈ r.head?, c = '\n') :
    first? (b ++ r) = some (.lineComment, .found b r) := by
  obtain ⟨body, rfl, hbody, hopener⟩ := hb
  refine first?_of_class 6 rfl ?_ (closed_found ?_)
  · have hnumeric := not_numeric_of (d := '-') ('-' :: body ++ r) (by decide) (by decide) nofun
    have hlong : longComment ('-' :: '-' :: body ++ r) = none := by
      rw [List.cons_append, List.cons_append, longComment, Option.map_eq_none_iff, longString,
        longOpener?_line hopener hr, Option.map_none]
    exact none_succ 5 rfl hnumeric hlong
  · have hline : ∀ c ∈ r.head?, (!isLineEnd c) = false := by
      intro c hc
      rw [hr c hc]
      rfl
    rw [List.cons_append, List.cons_append, lineComment?, run_stop (by simpa using hbody) hline]
    rfl

/-- A character that begins no comment, besides. -/
theorem not_comment_of {d : Char} {rest : List Char}
    (hnumeric : ∀ p ∈ classes.take 5, p.2 (d :: rest) = none)
    (hminus : d = '-' → rest.head? ≠ some '-') : ∀ p ∈ classes.take 7, p.2 (d :: rest) = none :=
  none_succ 6 rfl (none_succ 5 rfl hnumeric (longComment_eq_none_of rest hminus))
    (closed_eq_none (lineComment?_eq_none rest hminus))

theorem first?_blockQuote (r : List Char) (hb : IsLexeme .blockQuote b) :
    first? (b ++ r) = some (.blockQuote, .found b r) := by
  have hread := longString_append r (show IsLong b from hb)
  obtain ⟨level, body, rfl, -⟩ := hb
  exact first?_of_class 7 rfl (not_comment_of
    (not_numeric_of _ (by decide) (by decide) nofun) nofun) hread

/-- A character that begins no long string, besides. -/
theorem not_long_of {d : Char} {rest : List Char}
    (hcomment : ∀ p ∈ classes.take 7, p.2 (d :: rest) = none)
    (hbracket : d = '[' → ∀ x ∈ rest.head?, x ≠ '[' ∧ x ≠ '=') :
    ∀ p ∈ classes.take 8, p.2 (d :: rest) = none :=
  none_succ 7 rfl hcomment (longString_eq_none rest hbracket)

/-- A character that begins no string in quotes, besides. -/
theorem not_quoted_of {d : Char} {rest : List Char}
    (hlong : ∀ p ∈ classes.take 8, p.2 (d :: rest) = none) (hdouble : d ≠ '"')
    (hsingle : d ≠ '\'') : ∀ p ∈ classes.take 10, p.2 (d :: rest) = none :=
  none_succ 9 rfl (none_succ 8 rfl hlong (quoted_eq_none rest hdouble))
    (quoted_eq_none rest hsingle)

theorem first?_doubleQuoted (r : List Char) (hb : IsLexeme .doubleQuoted b) :
    first? (b ++ r) = some (.doubleQuoted, .found b r) := by
  have hread := quoted_append r (show IsQuoted '"' b from hb)
  obtain ⟨body, rfl, -⟩ := hb
  exact first?_of_class 8 rfl (not_long_of (not_comment_of
    (not_numeric_of _ (by decide) (by decide) nofun) nofun) nofun) hread

theorem first?_singleQuoted (r : List Char) (hb : IsLexeme .singleQuoted b) :
    first? (b ++ r) = some (.singleQuoted, .found b r) := by
  have hread := quoted_append r (show IsQuoted '\'' b from hb)
  obtain ⟨body, rfl, -⟩ := hb
  have hlong := not_long_of (not_comment_of
    (not_numeric_of (body ++ r) (show isNameStart '\'' = false by decide) (by decide) nofun)
    nofun) nofun
  exact first?_of_class 9 rfl (none_succ 8 rfl hlong (quoted_eq_none (body ++ r) (by decide))) hread

/-- An operator of two or three characters begins with no minus and no bracket,
and no digit stands in its second place. -/
theorem symbols_spelled : symbols.all (fun op =>
    match op with
    | [] => false
    | [d] => !isNameStart d && !isDecimalDigit d && d != '"' && d != '\''
    | d :: e :: _ => !isNameStart d && !isDecimalDigit d && d != '"' && d != '\'' && d != '-' &&
        d != '[' && !isDecimalDigit e) = true := by
  decide

theorem operatorOf?_longer {c : Char} {n : Nat} (r : List Char) (hc : Parts b c)
    (hn : b.length < n) : operatorOf? (b ++ c :: r) n = none := by
  unfold operatorOf?
  rw [if_neg]
  intro hmem
  have hclash := List.all_eq_true.1 hc.operator _ (List.contains_iff_mem.1 hmem)
  simp only [String.toList_ofList, Bool.not_eq_true', Bool.eq_false_iff, ne_eq,
    List.isPrefixOf_iff_prefix] at hclash
  refine hclash (List.prefix_take_iff.2 ⟨⟨r, by simp⟩, ?_⟩)
  simp only [List.length_append, List.length_singleton]
  omega

/-- Every operator is found by its own length, or at the end by a greater one. -/
theorem operator?_stop (hb : IsLexeme .operator b) (hr : ∀ c ∈ r.head?, Parts b c) :
    operator? (b ++ r) = some (b, r) := by
  have hmem : Vocabulary.allOperators.contains (String.ofList b) = true := hb
  have hlength : ∀ op ∈ symbols, 1 ≤ op.length ∧ op.length ≤ 3 := by decide
  have hlen := hlength b (isLexeme_operator.1 hb)
  cases r with
  | nil =>
    have hwhole : operatorOf? b 3 = some (b, []) := by
      rw [operatorOf?, List.take_of_length_le hlen.2, List.drop_of_length_le hlen.2, if_pos hmem]
    rw [List.append_nil, operator?, List.findSome?_cons, hwhole]
  | cons c r =>
    have hc := hr c rfl
    have hself : operatorOf? (b ++ c :: r) b.length = some (b, c :: r) := by
      rw [operatorOf?, List.take_left, List.drop_left, if_pos hmem]
    have hcases : b.length = 1 ∨ b.length = 2 ∨ b.length = 3 := by omega
    rcases hcases with h | h | h
    · rw [operator?, List.findSome?_cons, operatorOf?_longer r hc (by omega), List.findSome?_cons,
        operatorOf?_longer r hc (by omega), List.findSome?_cons, ← h, hself]
    · rw [operator?, List.findSome?_cons, operatorOf?_longer r hc (by omega), List.findSome?_cons,
        ← h, hself]
    · rw [operator?, List.findSome?_cons, ← h, hself]

theorem first?_operator (hb : IsLexeme .operator b) (hr : ∀ c ∈ r.head?, Parts b c) :
    first? (b ++ r) = some (.operator, .found b r) := by
  have hspelled := List.all_eq_true.1 symbols_spelled b (isLexeme_operator.1 hb)
  have hbefore : ∀ p ∈ classes.take 10, p.2 (b ++ r) = none := by
    match b, hspelled with
    | [d], hspelled =>
      simp only [Bool.and_eq_true, Bool.not_eq_true', bne_iff_ne] at hspelled
      obtain ⟨⟨⟨hname, hdigit⟩, hdouble⟩, hsingle⟩ := hspelled
      refine not_quoted_of (not_long_of (not_comment_of (not_numeric_of _ hname hdigit ?_) ?_) ?_)
        hdouble hsingle
      · rintro rfl
        exact run?_eq_none fun c hc => (hr c hc).number rfl
      · rintro rfl heq
        exact (hr '-' heq).comment rfl rfl
      · rintro rfl c hc
        exact (hr c hc).bracket rfl
    | d :: e :: rest, hspelled =>
      simp only [Bool.and_eq_true, Bool.not_eq_true', bne_iff_ne] at hspelled
      obtain ⟨⟨⟨⟨⟨⟨hname, hdigit⟩, hdouble⟩, hsingle⟩, hminus⟩, hbracket⟩, hsecond⟩ := hspelled
      exact not_quoted_of (not_long_of (not_comment_of
        (not_numeric_of _ hname hdigit fun _ => run?_eq_none (by simpa using hsecond))
        fun h => absurd h hminus) fun h => absurd h hbracket) hdouble hsingle
  exact first?_of_class 10 rfl hbefore (closed_found (operator?_stop hb hr))

/-- Spaces and line feeds are cut off up to the next visible character, or to the end. -/
theorem first?_whitespace (hb : b ≠ []) (hspaces : ∀ x ∈ b, x = ' ' ∨ x = '\n')
    (hr : ∀ x ∈ r.head?, isBlank x = false) :
    first? (b ++ r) = some (.whitespace, .found b r) := by
  have hblank : ∀ x ∈ b, isBlank x = true := by
    intro x hx
    rcases hspaces x hx with rfl | rfl <;> decide
  have hread : whitespace? (b ++ r) = some (b, r) := run?_stop hb hblank hr
  obtain ⟨d, rest, rfl⟩ := List.exists_cons_of_ne_nil hb
  have hoperator : operator? (d :: rest ++ r) = none := by
    have hnone : ∀ op ∈ symbols, op.head? ≠ some ' ' ∧ op.head? ≠ some '\n' := by decide
    rw [operator?, List.findSome?_eq_none_iff]
    intro n hn
    unfold operatorOf?
    rw [if_neg]
    intro hmem
    have hhead := hnone _ (isLexeme_operator.1 hmem)
    simp only [List.mem_cons, List.not_mem_nil, or_false] at hn
    rcases hn with rfl | rfl | rfl <;> rcases hspaces d (by simp) with rfl | rfl <;> simp at hhead
  have hquoted : ∀ p ∈ classes.take 10, p.2 (d :: rest ++ r) = none := by
    rcases hspaces d (by simp) with rfl | rfl
    · exact not_quoted_of (not_long_of (not_comment_of (not_numeric_of _ (by decide) (by decide)
        (by simp)) (by simp)) (by simp)) (by decide) (by decide)
    · exact not_quoted_of (not_long_of (not_comment_of (not_numeric_of _ (by decide) (by decide)
        (by simp)) (by simp)) (by simp)) (by decide) (by decide)
  exact first?_of_class 11 rfl (none_succ 10 rfl hquoted (closed_eq_none hoperator))
    (closed_found hread)

/-- A lexeme other than white space is cut off again, in any text, before a
character that follows it, and at the end of the text. -/
theorem first?_append {kind : TokenKind} (hkind : kind ≠ .whitespace ∧ kind ≠ .invalid)
    (hb : IsLexeme kind b) (hr : ∀ c ∈ r.head?, Follows kind b c) :
    first? (b ++ r) = some (kind, .found b r) := by
  cases kind with
  | name => exact first?_name hb hr
  | sciHexNumber => exact first?_sciHexNumber hb hr
  | hexNumber => exact first?_hexNumber hb hr
  | sciNumber => exact first?_sciNumber hb hr
  | number => exact first?_number hb hr
  | blockComment => exact first?_blockComment r hb
  | lineComment => exact first?_lineComment hb hr
  | blockQuote => exact first?_blockQuote r hb
  | doubleQuoted => exact first?_doubleQuoted r hb
  | singleQuoted => exact first?_singleQuoted r hb
  | operator => exact first?_operator hb hr
  | whitespace => exact absurd rfl hkind.1
  | invalid => exact absurd rfl hkind.2
  | _ => exact hb.elim

end

end LuaLayout.Lexeme
