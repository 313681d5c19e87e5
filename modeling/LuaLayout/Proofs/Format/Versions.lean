/-
LuaLayout.Proofs.Format.Versions — what a version of the language decides.

The version is looked at in two places: whether goto is a keyword, and whether
the operators that came later are accepted. Two versions that read the word goto
alike give every token the same final kind, so they reduce what both accept to
the same tokens, and nothing behind the reduction asks for the version again. A
later version accepts more, so raising the version keeps every formatted text;
lowering it can only run into an operator that is not known yet, and the first
of those is the one that is reported.
-/
import LuaLayout.Proofs.Format.Causes

namespace LuaLayout

section

variable {v w : Version} {t : Token} {raw : List Token} {source text : String}

/-! ## 1. One token at two versions -/

/-- Both versions take the word goto for the same: it is a keyword at both or at
neither, or the token is not that word. -/
def ReadAlike (v w : Version) (t : Token) : Prop :=
  t.kind = .name → t.text = "goto" → (Version.withGoto ≤ v ↔ Version.withGoto ≤ w)

/-- No word but goto is a keyword at some versions only. -/
theorem keywords_contains (h : text = "goto" → (Version.withGoto ≤ v ↔ Version.withGoto ≤ w)) :
    (Vocabulary.keywords v).contains text = (Vocabulary.keywords w).contains text := by
  have hkeywords : ∀ version, (Vocabulary.keywords version).contains text =
      ((decide (Version.withGoto ≤ version) && text == "goto") ||
        Vocabulary.baseKeywords.contains text) := by
    intro version
    unfold Vocabulary.keywords
    split
    · next hgoto => rw [List.contains_cons, decide_eq_true hgoto, Bool.true_and]
    · next hgoto => rw [decide_eq_false hgoto, Bool.false_and, Bool.false_or]
  rw [hkeywords v, hkeywords w]
  by_cases htext : text = "goto"
  · rw [decide_eq_decide.2 (h htext)]
  · rw [beq_false_of_ne htext, Bool.and_false, Bool.and_false]

/-- A token that is read alike has the same final kind. -/
theorem Token.final_eq_of_readAlike (h : ReadAlike v w t) : t.final v = t.final w := by
  obtain ⟨kind, text, pos⟩ := t
  cases kind with
  | name => simp only [final, finalKind, nameKind, keywords_contains (h rfl)]
  | _ => rfl

/-- What a version accepts, every later one accepts. -/
theorem accepts_mono (hle : v ≤ w) {kind : TokenKind} (h : accepts v kind text = true) :
    accepts w kind text = true := by
  cases kind with
  | operator =>
    simp only [accepts, Vocabulary.acceptsOperator, Bool.or_eq_true, Bool.and_eq_true,
      decide_eq_true_eq] at h ⊢
    exact h.imp_right fun h => h.imp_right fun h => ⟨Int.le_trans h.1 hle, h.2⟩
  | _ => exact h

/-- A version that accepts a bitwise operator is not before those. -/
theorem withBitwise_le_of_accepts (hbitwise : text ∈ Vocabulary.bitwiseOperators)
    (h : accepts v .operator text = true) : Version.withBitwise ≤ v := by
  obtain ⟨hbase, hdots⟩ := bitwise_disjoint text hbitwise
  simpa [accepts, Vocabulary.acceptsOperator, hbase, hdots, hbitwise] using h

/-- A token that one version refuses and another accepts is an operator that came
in between. -/
theorem classify_eq_error_of_accepts {fault : Fault}
    (haccepted : accepts w t.kind t.text = true)
    (h : classify v (Vocabulary.keywords v) t = .error fault) :
    (t.kind = .operator ∧ t.text ∈ Vocabulary.bitwiseOperators) ∧
      (v < Version.withBitwise ∧ Version.withBitwise ≤ w) ∧ fault = .operator t.text t.pos := by
  obtain ⟨kind, text, pos⟩ := t
  cases kind with
  | operator =>
    simp only [classify] at h
    split at h
    · cases h
    · next hdots =>
      split at h
      · cases h
      · next hrefused =>
        simp only [accepts, hdots, Bool.false_or, Vocabulary.acceptsOperator, Bool.or_eq_true,
          Bool.and_eq_true, decide_eq_true_eq, List.contains_iff_mem] at haccepted hrefused
        obtain ⟨hbase, hlate⟩ := not_or.1 hrefused
        obtain ⟨hw, hbitwise⟩ := haccepted.resolve_left hbase
        have hv : v < Version.withBitwise := Int.not_le.1 fun hv => hlate ⟨hv, hbitwise⟩
        exact ⟨⟨rfl, hbitwise⟩, ⟨hv, hw⟩, (Except.error.inj h).symm⟩
  | invalid => cases haccepted
  | _ => cases h

/-! ## 2. Whole texts at two versions -/

/-- Where both versions accept all tokens and read them alike, they reduce them
to the same. -/
theorem reduce_eq_of_readAlike (halike : ∀ t ∈ raw, ReadAlike v w t)
    (hv : ∀ t ∈ raw, accepts v t.kind t.text = true)
    (hw : ∀ t ∈ raw, accepts w t.kind t.text = true) :
    reduce v .whitespace raw = reduce w .whitespace raw := by
  have hkept : keptTokens v raw = keptTokens w raw := by
    rw [keptTokens, keptTokens,
      List.map_congr_left fun t ht => Token.final_eq_of_readAlike (halike t ht)]
  rw [reduce_whitespace_eq_ok_iff.2 ⟨hv, rfl⟩, reduce_whitespace_eq_ok_iff.2 ⟨hw, rfl⟩, hkept]

/-- A formatted text has tokens, and the version accepts them. -/
theorem accepted_of_format (h : format v source = .ok text) :
    ∃ raw, tokenize source = .ok raw ∧ ∀ t ∈ raw, accepts v t.kind t.text = true := by
  obtain ⟨raw, tree, hreads, -⟩ := format_eq_ok_iff.1 h
  exact ⟨raw, hreads.tokens, hreads.accepted⟩

/-- Where both versions accept all tokens and read them alike, they format them
to the same. -/
theorem format_eq_of_readAlike (htokens : tokenize source = .ok raw)
    (halike : ∀ t ∈ raw, ReadAlike v w t) (hv : ∀ t ∈ raw, accepts v t.kind t.text = true)
    (hw : ∀ t ∈ raw, accepts w t.kind t.text = true) : format v source = format w source := by
  rw [format_eq, format_eq, htokens]
  simp only [bind, Except.bind, reduce_eq_of_readAlike halike hv hw]

/-- A fault of classification is the fault of the program. -/
theorem format_eq_error_of_mapM {fault : Fault} (htokens : tokenize source = .ok raw)
    (h : raw.mapM (classify v (Vocabulary.keywords v)) = .error fault) :
    format v source = .error fault := by
  rw [format_eq, htokens]
  simp only [bind, Except.bind, reduce, h]

/-- Raising the version is conservative where the word goto is read alike. What is
formatted at a version is formatted to the same text at every later one. Read
backwards, the earlier version gives the same text, or it knows fewer operators
and stops at the first operator of the source that it does not know. -/
theorem format_raised (hle : v ≤ w)
    (hgoto : (∀ raw, tokenize source = .ok raw → ∀ t ∈ raw, t.kind = .name → t.text ≠ "goto") ∨
      Version.withGoto ≤ v ∨ w < Version.withGoto) (text : String) :
    (format v source = .ok text → format w source = .ok text) ∧
    (format w source = .ok text → format v source = .ok text ∨
      (v < Version.withBitwise ∧ Version.withBitwise ≤ w) ∧
      ∃ before t after, tokenize source = .ok (before ++ t :: after) ∧
        (t.kind = .operator ∧ t.text ∈ Vocabulary.bitwiseOperators) ∧
        (∀ u ∈ before, u.kind = .operator → u.text ∉ Vocabulary.bitwiseOperators) ∧
        format v source = .error (.operator t.text t.pos)) := by
  have halike : ∀ {raw}, tokenize source = .ok raw → ∀ t ∈ raw, ReadAlike v w t := by
    intro raw htokens t ht hname htext
    rcases hgoto with hnone | hboth | hneither
    · exact absurd htext (hnone raw htokens t ht hname)
    · exact ⟨fun _ => Int.le_trans hboth hle, fun _ => hboth⟩
    · exact ⟨fun hv => absurd (Int.le_trans hv hle) (Int.not_le.2 hneither),
        fun hw => absurd hw (Int.not_le.2 hneither)⟩
  constructor
  · intro h
    obtain ⟨raw, htokens, hv⟩ := accepted_of_format h
    have hw : ∀ t ∈ raw, accepts w t.kind t.text = true := fun t ht => accepts_mono hle (hv t ht)
    rw [← format_eq_of_readAlike htokens (halike htokens) hv hw, h]
  · intro h
    obtain ⟨raw, htokens, hw⟩ := accepted_of_format h
    cases hm : raw.mapM (classify v (Vocabulary.keywords v)) with
    | ok classified =>
      have hv := (mapM_classify_eq_ok_iff.1 hm).1
      exact .inl (by rw [format_eq_of_readAlike htokens (halike htokens) hv hw, h])
    | error fault =>
      obtain ⟨before, t, after, rfl, hbefore, hrefused⟩ := mapM_classify_eq_error hm
      obtain ⟨hoperator, hbetween, rfl⟩ :=
        classify_eq_error_of_accepts (hw t (by simp)) hrefused
      refine .inr ⟨hbetween, before, t, after, htokens, hoperator, ?_,
        format_eq_error_of_mapM htokens hm⟩
      intro u hu hkind hbitwise
      have hlate := withBitwise_le_of_accepts hbitwise (hkind ▸ hbefore u hu)
      exact absurd hbetween.1 (Int.not_lt.2 hlate)

/-- At the second version goto is a keyword already, and floor division is not
known yet. -/
theorem format_raised_goto :
    (2 : Version) ≤ 3 ∧ Version.withGoto ≤ 2 ∧
      format 3 "goto a ::a:: x = 1 // 2 | 3" = .ok "goto a\n::a::\nx = 1 // 2 | 3\n" ∧
      ∃ before t after, tokenize "goto a ::a:: x = 1 // 2 | 3" = .ok (before ++ t :: after) ∧
        t.text ∈ Vocabulary.bitwiseOperators ∧
        (∀ u ∈ before, u.kind = .operator → u.text ∉ Vocabulary.bitwiseOperators) ∧
        format 2 "goto a ::a:: x = 1 // 2 | 3" = .error (.operator t.text t.pos) := by
  have hlater : format 3 "goto a ::a:: x = 1 // 2 | 3" = .ok "goto a\n::a::\nx = 1 // 2 | 3\n" := by
    decide +kernel
  have hearlier : format 2 "goto a ::a:: x = 1 // 2 | 3" = .error (.operator "//" ⟨1, 20⟩) := by
    decide +kernel
  refine ⟨by decide, by decide, hlater, ?_⟩
  rcases (format_raised (v := 2) (w := 3) (by decide) (.inr (.inl (by decide))) _).2 hlater with
    hsame | ⟨-, before, t, after, htokens, hoperator, hbefore, hrefused⟩
  · rw [hearlier] at hsame
    cases hsame
  · exact ⟨before, t, after, htokens, hoperator.2, hbefore, hrefused⟩

end

end LuaLayout
