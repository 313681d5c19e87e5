/-
LuaLayout.Proofs.Format.Causes — every failure has a cause in the source.

Three things stop a program, and the first of them that applies is told: an
opener that nothing closes, at its place; the first token that the version
refuses, at its place; or a complaint of the grammar, near a reduced token or at
the end. A complaint names a token that the walk has at hand, so it is one of the
reduced tokens and shows where that begins; since places only go forward, no
other token begins there. A walk over no tokens never complains, so there is a
last token wherever the end of the input is named.
-/
import Mathlib.Data.List.Nodup
import LuaLayout.Proofs.Format.Printed
import LuaLayout.Proofs.Lexing.Lossless

namespace LuaLayout

open Lexeme

/-! ## 1. What explains an answer -/

/-- The report on a token that a version refuses. -/
def refusal? (version : Version) (t : Token) : Option Report :=
  if t.kind = .invalid then some ⟨.lexical, "invalid characters", t.pos⟩
  else if t.kind = .operator ∧ t.text ∈ Vocabulary.bitwiseOperators ∧
      version < Version.withBitwise then
    some ⟨.operator, "invalid operator '" ++ t.text ++ "'", t.pos⟩
  else none

/-- The token stands where a token of the text does: that one is kept, or it is
the minus that a number was joined to. -/
inductive FromText (raw : List Token) (t : Token) : Prop
  | kept (u : Token) : u ∈ raw → t.text = u.text → t.pos = u.pos → FromText raw t
  | folded (minus number : Token) : minus ∈ raw → number ∈ raw → minus.text = "-" →
      t.text = "-" ++ number.text → t.pos = minus.pos → FromText raw t

/-- The source is cut to its end, none of its tokens is refused, and they have
the reduction. -/
structure Reduces (version : Version) (source : String) (raw : List Token)
    (reduction : Reduction) : Prop where
  tokens : tokenize source = .ok raw
  accepted : ∀ t ∈ raw, refusal? version t = none
  reduced : reduce version .whitespace raw = .ok reduction

/-- What a source explains: the text of a program, or a report whose cause and
place can be found in it. At most one of the ways applies. -/
inductive Explains (version : Version) (source : String) : Except Report String → Prop
  /-- The source is cut up to an opener that nothing closes. -/
  | unclosed (segments : List Segment) (rest : List Char) (cause : LexicalCause) :
      Cuts source.toList segments rest → Unclosed cause rest →
      Explains version source
        (.error ⟨.lexical, cause.message, positionAfter (segments.flatMap Segment.chars)⟩)
  /-- A token is refused, and none before it. -/
  | refused (before after : List Token) (t : Token) (report : Report) :
      tokenize source = .ok (before ++ t :: after) →
      (∀ u ∈ before, refusal? version u = none) → refusal? version t = some report →
      t.pos = positionAfter (charsOf before) →
      Explains version source (.error report)
  /-- The grammar complains near the one reduced token at a place. -/
  | near (raw : List Token) (reduction : Reduction) (what : Complaint) (t : Token) :
      Reduces version source raw reduction → t ∈ reduction.tokens →
      (∀ u ∈ reduction.tokens, u.pos = t.pos → u = t) → FromText raw t →
      Explains version source
        (.error ⟨.grammar, what.message ++ " near '" ++ t.text ++ "'", t.pos⟩)
  /-- The grammar complains near the end, at the last reduced token. -/
  | atEnd (raw : List Token) (reduction : Reduction) (what : Complaint) (last : Token) :
      Reduces version source raw reduction → reduction.tokens.getLast? = some last →
      FromText raw last →
      Explains version source (.error ⟨.grammar, what.message ++ " near <eof>", last.pos⟩)
  /-- The source is a program. -/
  | text (raw : List Token) (reduction : Reduction) (text : String) :
      Reduces version source raw reduction → Explains version source (.ok text)

/-- What is shown of formatting a source. -/
def shown (version : Version) (source : String) : Except Report String :=
  (format version source).mapError Fault.report

/-! ## 2. Refused tokens -/

/-- What cannot be fully lexed is an opener that nothing closes, at its place. -/
theorem tokenize_eq_error_iff {text : String} {fault : Fault} :
    tokenize text = .error fault ↔ ∃ segments rest cause, Cuts text.toList segments rest ∧
      Unclosed cause rest ∧ fault = .lexical cause (positionAfter (segments.flatMap Segment.chars)) := by
  rw [tokenize_eq, advance_start]
  constructor
  · intro h
    split at h
    · cases h
    · next hne =>
      obtain ⟨hcuts, hstuck⟩ := Segment.cut_eq_iff.1 (Prod.eta (Segment.cut true text.toList)).symm
      rw [List.isEmpty_iff] at hne
      obtain ⟨cause, hunclosed⟩ := (stuck_iff.1 hstuck).resolve_left hne
      refine ⟨_, _, cause, hcuts, hunclosed, ?_⟩
      rw [← Except.error.inj h, hunclosed.causeOf]
  · rintro ⟨segments, rest, cause, hcuts, hunclosed, rfl⟩
    have hcut := Segment.cut_eq_iff.2 ⟨hcuts, stuck_iff.2 (.inr ⟨cause, hunclosed⟩)⟩
    simp [hcut, hunclosed.ne_nil, hunclosed.causeOf]

section

variable {version : Version} {tokens : List Token} {t : Token} {fault : Fault}

/-- The operators that some version refuses belong to no other group. -/
theorem bitwise_disjoint : ∀ text ∈ Vocabulary.bitwiseOperators,
    text ∉ Vocabulary.baseOperators ∧ text ≠ Vocabulary.ellipsis := by decide

/-- A lexeme is accepted exactly if there is no report on it. -/
theorem accepts_iff_refusal? (hlex : IsLexeme t.kind t.text.toList) :
    accepts version t.kind t.text = true ↔ refusal? version t = none := by
  obtain ⟨kind, text, pos⟩ := t
  cases kind with
  | operator =>
    have hknown : text ∈ Vocabulary.allOperators := by
      have hcontains : Vocabulary.allOperators.contains (String.ofList text.toList) = true := hlex
      rw [String.ofList_toList] at hcontains
      exact List.contains_iff_mem.1 hcontains
    simp only [Vocabulary.allOperators, List.mem_append, List.mem_singleton] at hknown
    simp only [accepts, refusal?, Vocabulary.acceptsOperator, Bool.or_eq_true, Bool.and_eq_true,
      beq_iff_eq, List.contains_iff_mem, decide_eq_true_eq, reduceCtorEq, if_false, true_and]
    by_cases hbitwise : text ∈ Vocabulary.bitwiseOperators
    · obtain ⟨hbase, hdots⟩ := bitwise_disjoint text hbitwise
      simp [hbitwise, hbase, hdots]
    · simp only [hbitwise, or_false] at hknown
      simp [hbitwise, hknown.symm]
  | invalid => simp [accepts, refusal?]
  | _ => simp [accepts, refusal?]

/-- Classification fails with the report on the token. -/
theorem refusal?_of_classify (h : classify version (Vocabulary.keywords version) t = .error fault)
    (hlex : IsLexeme t.kind t.text.toList) : refusal? version t = some fault.report := by
  have hrefused : refusal? version t ≠ none := by
    intro hnone
    have hok := classify_eq_ok_iff.2 ⟨(accepts_iff_refusal? hlex).2 hnone, rfl⟩
    rw [h] at hok
    cases hok
  obtain ⟨kind, text, pos⟩ := t
  cases kind with
  | operator =>
    have hbitwise : text ∈ Vocabulary.bitwiseOperators ∧ version < Version.withBitwise := by
      simpa [refusal?] using hrefused
    have hfault : fault = .operator text pos := by
      simp only [classify] at h
      split at h
      · cases h
      · split at h
        · cases h
        · exact (Except.error.inj h).symm
    simp [refusal?, hbitwise, hfault, Fault.report]
  | invalid =>
    obtain rfl := Except.error.inj h
    rfl
  | _ => cases h

/-- The first token that is refused decides. -/
theorem refused_of_mapM (hlex : ∀ t ∈ tokens, IsLexeme t.kind t.text.toList)
    (h : tokens.mapM (classify version (Vocabulary.keywords version)) = .error fault) :
    ∃ before t after, tokens = before ++ t :: after ∧ (∀ u ∈ before, refusal? version u = none) ∧
      refusal? version t = some fault.report := by
  obtain ⟨before, t, after, rfl, hbefore, hrefused⟩ := mapM_classify_eq_error h
  refine ⟨before, t, after, rfl, fun u hu => ?_, refusal?_of_classify hrefused (hlex t (by simp))⟩
  exact (accepts_iff_refusal? (hlex u (by simp [hu]))).1 (hbefore u hu)

theorem refused_of_reduce {trim : Trim} (hlex : ∀ t ∈ tokens, IsLexeme t.kind t.text.toList)
    (h : reduce version trim tokens = .error fault) :
    ∃ before t after, tokens = before ++ t :: after ∧ (∀ u ∈ before, refusal? version u = none) ∧
      refusal? version t = some fault.report := by
  refine refused_of_mapM hlex ?_
  rw [reduce] at h
  cases hm : tokens.mapM (classify version (Vocabulary.keywords version)) with
  | error fault' =>
    rw [hm] at h
    obtain rfl := Except.error.inj h
    rfl
  | ok classified =>
    rw [hm] at h
    cases trim <;> cases h

end

/-! ## 3. Places of reduced tokens -/

namespace Position

/-- The position comes earlier in a text. -/
def Before (p q : Position) : Prop := p.line < q.line ∨ p.line = q.line ∧ p.col < q.col

theorem Before.trans {p q r : Position} (h : p.Before q) (h' : q.Before r) : p.Before r := by
  unfold Before at *
  omega

theorem Before.ne {p q : Position} (h : p.Before q) : p ≠ q := by
  rintro rfl
  unfold Before at h
  omega

theorem before_step (p : Position) (c : Char) : p.Before (p.step c) := by
  unfold Before step
  split
  · exact .inl (Int.lt_succ _)
  · exact .inr ⟨rfl, Int.lt_succ _⟩

/-- Text moves the position on. -/
theorem before_advance (p : Position) {text : List Char} (h : text ≠ []) :
    p.Before (p.advance text) := by
  induction text generalizing p with
  | nil => exact absurd rfl h
  | cons c rest ih =>
    cases rest with
    | nil => exact p.before_step c
    | cons d rest => exact (p.before_step c).trans (ih (p.step c) (by simp))

end Position

theorem Cuts.chars_ne_nil {text rest : List Char} {segments : List Segment}
    (h : Cuts text segments rest) : ∀ s ∈ segments, s.chars ≠ [] := by
  induction h with
  | nil text => simp
  | cons hfirst _ ih => exact List.forall_mem_cons.2 ⟨(first?_of hfirst).1, ih⟩

/-- Every token comes before those behind it. -/
theorem Segment.place_pairwise (p : Position) {segments : List Segment}
    (h : ∀ s ∈ segments, s.chars ≠ []) :
    (Segment.place p segments).Pairwise (fun t u => t.pos.Before u.pos) ∧
      ∀ t ∈ Segment.place p segments, p = t.pos ∨ p.Before t.pos := by
  induction segments generalizing p with
  | nil => simp [Segment.place]
  | cons s rest ih =>
    obtain ⟨hs, hrest⟩ := List.forall_mem_cons.1 h
    obtain ⟨hpairs, hfrom⟩ := ih (p.advance s.chars) hrest
    have hlater : ∀ t ∈ Segment.place (p.advance s.chars) rest, p.Before t.pos := by
      intro t ht
      rcases hfrom t ht with heq | hbefore
      · exact heq ▸ p.before_advance hs
      · exact (p.before_advance hs).trans hbefore
    refine ⟨List.pairwise_cons.2 ⟨hlater, hpairs⟩, List.forall_mem_cons.2 ⟨.inl rfl, ?_⟩⟩
    exact fun t ht => .inr (hlater t ht)

section

variable {version : Version} {source : String} {raw : List Token} {t u : Token}

theorem pos_pairwise_of_tokenize (h : tokenize source = .ok raw) :
    (raw.map (·.pos)).Pairwise Position.Before := by
  obtain ⟨segments, hcuts, rfl⟩ := tokenize_eq_ok_iff.1 h
  exact List.pairwise_map.2 (Segment.place_pairwise _ hcuts.chars_ne_nil).1

theorem placed_of_tokenize (h : tokenize source = .ok raw) : Placed raw := by
  obtain ⟨segments, -, rfl⟩ := tokenize_eq_ok_iff.1 h
  have hnil : Placed [] := fun before t after heq => by simp at heq
  exact hnil.append_place segments

/-- Joined tokens stand where tokens stood. -/
theorem map_pos_joinSigns (folds : Bool) (tokens : List Token) :
    ((joinSigns folds tokens).map (·.pos)).Sublist (tokens.map (·.pos)) := by
  fun_induction joinSigns folds tokens with
  | case1 folds => exact .slnil
  | case2 folds t => exact .refl _
  | case3 folds t n rest h ih => exact (ih.cons n.pos).cons_cons t.pos
  | case4 folds t n rest h ih => exact ih.cons_cons t.pos

theorem map_pos_keptTokens (version : Version) (raw : List Token) :
    ((keptTokens version raw).map (·.pos)).Sublist (raw.map (·.pos)) := by
  have hfinal : (raw.map (Token.final version)).map (·.pos) = raw.map (·.pos) := by
    rw [List.map_map]
    rfl
  rw [← hfinal]
  exact List.filter_sublist.map _

/-- A reduced token is known by its place. -/
theorem eq_of_pos_joinSigns (htokens : tokenize source = .ok raw)
    (ht : t ∈ joinSigns true (keptTokens version raw))
    (hu : u ∈ joinSigns true (keptTokens version raw)) (hpos : u.pos = t.pos) : u = t := by
  have hsub := (map_pos_joinSigns true (keptTokens version raw)).trans (map_pos_keptTokens version raw)
  have hnodup : ((joinSigns true (keptTokens version raw)).map (·.pos)).Nodup :=
    ((pos_pairwise_of_tokenize htokens).sublist hsub).imp Position.Before.ne
  exact List.inj_on_of_nodup_map hnodup hu ht hpos

/-- A reduced token stands where a token of the text does. -/
theorem fromText_joinSigns (h : t ∈ joinSigns true (keptTokens version raw)) : FromText raw t := by
  have hkept : ∀ u ∈ keptTokens version raw, ∃ v ∈ raw, u = v.final version := by
    intro u hu
    obtain ⟨v, hv, rfl⟩ := List.mem_map.1 (List.mem_filter.1 hu).1
    exact ⟨v, hv, rfl⟩
  rcases mem_joinSigns h with hmem | ⟨minus, hminus, number, hnumber, hsign, -, rfl⟩
  · obtain ⟨v, hv, rfl⟩ := hkept t hmem
    exact .kept v hv rfl rfl
  · obtain ⟨m, hm, rfl⟩ := hkept minus hminus
    obtain ⟨n, hn, rfl⟩ := hkept number hnumber
    exact .folded m n hm hn (Token.isOperator_iff.1 hsign).2 rfl rfl

end

/-! ## 4. Complaints -/

theorem report_near (what : Complaint) (text : String) (pos : Position) :
    (Fault.grammar what (some text) pos).report =
      ⟨.grammar, what.message ++ " near '" ++ text ++ "'", pos⟩ := by
  have hquote : " near '" = " near " ++ "'" := rfl
  rw [hquote, Fault.report, Fault.nearText]
  simp only [String.append_assoc]

theorem report_atEnd (what : Complaint) (pos : Position) :
    (Fault.grammar what none pos).report = ⟨.grammar, what.message ++ " near <eof>", pos⟩ := by
  have hend : " near <eof>" = " near " ++ "<eof>" := rfl
  rw [hend, Fault.report, Fault.nearText, String.append_assoc]

/-- A program given by its tokens is formatted, or the grammar complains near one
of the tokens, or near the end at the last of them. -/
theorem formatTokens_cases (tokens : List Token) :
    (∃ text, formatTokens .program tokens = .ok text) ∨
      (∃ what, ∃ t ∈ tokens, formatTokens .program tokens = .error (.grammar what (some t.text) t.pos)) ∨
      ∃ what last, tokens.getLast? = some last ∧
        formatTokens .program tokens = .error (.grammar what none last.pos) := by
  -- Every leaf corresponds to itself, and its token is one of the tokens.
  have hself : Leaf.Correspond (fun t u => t = u ∧ t ∈ tokens) (Leaf.ofTokens tokens).2
      (Leaf.ofTokens tokens).2 :=
    List.forall₂_same.2 fun l hl => ⟨rfl, (Leaf.of_mem_leaves hl).1.1⟩
  have hfaithful : Token.Faithful fun t u => t = u ∧ t ∈ tokens :=
    { kind := fun h => congrArg Token.kind h.1
      text := fun h => congrArg Token.text h.1 }
  rcases formatTokens_agree hfaithful hself with ⟨htext, -⟩ | ⟨what, near, near', hnear, hfault, -⟩
  · exact .inl htext
  · cases hnear with
    | some h => exact .inr (.inl ⟨what, _, h.2, hfault⟩)
    | none =>
      refine .inr (.inr ?_)
      cases hlast : tokens.getLast? with
      | some last =>
        refine ⟨what, last, rfl, ?_⟩
        rw [hfault, faultIn, Session.complaint, Session.lastPosition]
        simp [Session.start, hlast]
      | none =>
        -- Where there is no token there is nothing to complain about.
        obtain rfl := List.getLast?_eq_none_iff.1 hlast
        have hempty : formatTokens .program [] = .ok "" := by decide +kernel
        rw [hempty] at hfault
        cases hfault

/-! ## 5. Every answer is explained -/

/-- Whatever the source and the version, formatting gives a text or a report that
the source explains. -/
theorem explains_shown (version : Version) (source : String) :
    Explains version source (shown version source) := by
  rw [shown, format_eq]
  cases htokens : tokenize source with
  | error fault =>
    obtain ⟨segments, rest, cause, hcuts, hunclosed, rfl⟩ := tokenize_eq_error_iff.1 htokens
    exact .unclosed segments rest cause hcuts hunclosed
  | ok raw =>
    simp only [bind, Except.bind]
    cases hreduce : reduce version .whitespace raw with
    | error fault =>
      obtain ⟨before, t, after, rfl, hbefore, ht⟩ :=
        refused_of_reduce (isLexeme_of_tokenize htokens) hreduce
      exact .refused before after t _ htokens hbefore ht
        (placed_of_tokenize htokens before t after rfl)
    | ok reduction =>
      obtain ⟨haccepted, hreduction⟩ := reduce_whitespace_eq_ok_iff.1 hreduce
      have hreduces : Reduces version source raw reduction :=
        { tokens := htokens
          accepted := fun t ht =>
            (accepts_iff_refusal? (isLexeme_of_tokenize htokens t ht)).1 (haccepted t ht)
          reduced := hreduce }
      replace hreduction := congrArg Reduction.tokens hreduction
      have hfrom : ∀ t ∈ reduction.tokens, FromText raw t := by
        rw [hreduction]
        exact fun t ht => fromText_joinSigns ht
      rcases formatTokens_cases reduction.tokens with
        ⟨text, htext⟩ | ⟨what, t, ht, hfault⟩ | ⟨what, last, hlast, hfault⟩
      · simp only [htext]
        exact .text raw reduction text hreduces
      · simp only [hfault, Except.mapError, report_near]
        refine .near raw reduction what t hreduces ht ?_ (hfrom t ht)
        rw [hreduction] at ht ⊢
        exact fun u hu => eq_of_pos_joinSigns htokens ht hu
      · simp only [hfault, Except.mapError, report_atEnd]
        exact .atEnd raw reduction what last hreduces hlast
          (hfrom last (List.mem_of_getLast? hlast))

/-- A number that was joined to its minus is reported at the minus. -/
example : shown 1 "do\n  - \n5 end" =
    .error ⟨.grammar, "unexpected symbol near '-5'", ⟨2, 3⟩⟩ := by decide +kernel

end LuaLayout
