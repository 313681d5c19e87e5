/-
LuaLayout.Proofs.Reduction.Places — which signs a reduction joins, place by place.

Reducing keeps a stack that already holds joined numbers and has given up their
signs, and decides by a look at its top. What it decides can be told from the
trimmed tokens alone: whether the minus at a place is joined to the number after
it depends on the nearest token before it that is no comment, as it stood before
anything was joined. That token may have become part of a joined number, but
then it is a number itself and the minus after it is binary either way.

`standsAt` gives for each place what the reduction puts there, and the whole
reduction is these in order. Two joined pairs never overlap, since one begins
with a minus and ends with a number.
-/
import Mathlib.Data.List.Basic
import LuaLayout.Proofs.Tokens.Spelling
import LuaLayout.Proofs.Tokens.Joined

namespace LuaLayout

/-! ## 1. The rule for one place -/

/-- A minus after the tokens is unary: of those that are no comments, the last
one is an operator that closes no group or a keyword other than the end of a
block, or there is none. -/
def unaryAfter (before : List Token) : Bool :=
  ((before.filter (!Leaf.isComment ·)).getLast?).all fun t =>
    (t.kind == .operator && !List.contains [")", "]", "\x7d"] t.text) ||
      (t.kind == .keyword && t.text != "end")

/-- The token at a place is a minus that is joined to the number after it. -/
def joinsAt (tokens : List Token) (i : Nat) : Bool :=
  tokens[i]?.any (·.isOperator "-") && tokens[i + 1]?.any (·.kind == .number) &&
    unaryAfter (tokens.take i)

/-- The number with the minus before it, at the place of the minus. -/
def joined (minus number : Token) : Token := ⟨.number, "-" ++ number.text, minus.pos⟩

/-- What the reduction has for a place: a number with its minus where the two are
joined, nothing for the number that was joined, and else the token. -/
def standsAt (tokens : List Token) (i : Nat) : Option Token :=
  if joinsAt tokens i then
    tokens[i]?.bind fun minus => tokens[i + 1]?.map fun number => joined minus number
  else if decide (0 < i) && joinsAt tokens (i - 1) then none
  else tokens[i]?

section

variable {before rest : List Token} {t n : Token}

/-- What the reduction asks of the token before a minus, as one condition. -/
theorem foldsAfter_some (t : Token) : foldsAfter (some t) =
    ((t.kind == .operator && !List.contains [")", "]", "\x7d"] t.text) ||
      (t.kind == .keyword && t.text != "end")) := by
  obtain ⟨kind, text, pos⟩ := t
  cases kind <;> simp [foldsAfter, Vocabulary.closingBrackets]

/-- One token more decides alone, unless it is a comment. -/
theorem unaryAfter_append_singleton :
    unaryAfter (before ++ [t]) = foldsPast (unaryAfter before) t := by
  cases hcomment : Leaf.isComment t with
  | true => simp [unaryAfter, foldsPast, hcomment, Leaf.isComment_iff.1 hcomment]
  | false =>
    have hkind : (t.kind == .comment) = false := hcomment
    rw [foldsPast, hkind, if_neg (by simp), foldsAfter_some, unaryAfter, List.filter_append,
      List.filter_singleton, hcomment]
    simp

/-- No minus is unary after a number. -/
theorem unaryAfter_number (hn : n.kind = .number) : unaryAfter (before ++ [n]) = false := by
  rw [unaryAfter_append_singleton, foldsPast_number hn]

theorem getElem?_place : (before ++ t :: rest)[before.length]? = some t := by simp

theorem getElem?_place_succ : (before ++ t :: rest)[before.length + 1]? = rest.head? := by
  have hnext : before.length + 1 - before.length = 1 := Nat.add_sub_cancel_left ..
  rw [List.getElem?_append_right (Nat.le_add_right ..), hnext]
  cases rest <;> rfl

/-- The rule for the first place after some tokens. -/
theorem joinsAt_place : joinsAt (before ++ t :: rest) before.length =
    (t.isOperator "-" && rest.head?.any (·.kind == .number) && unaryAfter before) := by
  rw [joinsAt, getElem?_place, getElem?_place_succ, List.take_left]
  rfl

/-! ## 2. All places in order -/

/-- Nothing is joined across the end of the tokens before. -/
def Parted (before rest : List Token) : Prop :=
  (decide (0 < before.length) && joinsAt (before ++ rest) (before.length - 1)) = false

theorem Parted.standsAt_keep (h : Parted before (t :: rest))
    (hjoin : joinsAt (before ++ t :: rest) before.length = false) :
    standsAt (before ++ t :: rest) before.length = some t := by
  have hparted : (decide (0 < before.length) &&
      joinsAt (before ++ t :: rest) (before.length - 1)) = false := h
  rw [standsAt, hjoin, hparted, getElem?_place]
  rfl

theorem parted_append_singleton (h : joinsAt (before ++ t :: rest) before.length = false) :
    Parted (before ++ [t]) rest := by
  simp [Parted, h]

/-- The reduction in the order of the places, and how often it joins. -/
theorem joinSigns_eq_places {folds : Bool} (hfolds : folds = unaryAfter before)
    (hparted : Parted before rest) :
    joinSigns folds rest =
        (List.range' before.length rest.length).filterMap (standsAt (before ++ rest)) ∧
      (joinSigns folds rest).length +
          (List.range' before.length rest.length).countP (joinsAt (before ++ rest)) =
        rest.length := by
  fun_induction joinSigns folds rest generalizing before with
  | case1 folds => simp
  | case2 folds t =>
    have hjoin : joinsAt (before ++ [t]) before.length = false := by simp [joinsAt_place]
    simp [hparted.standsAt_keep hjoin, hjoin]
  | case3 folds t n rest hfold ih =>
    subst hfolds
    simp only [Bool.and_eq_true, beq_iff_eq] at hfold
    obtain ⟨⟨hnumber, hminus⟩, hunary⟩ := hfold
    have hjoin : joinsAt (before ++ t :: n :: rest) before.length = true := by
      rw [joinsAt_place, hminus, hunary]
      simp [hnumber]
    have hnext : joinsAt (before ++ t :: n :: rest) (before.length + 1) = false := by
      rw [joinsAt, getElem?_place_succ]
      simp [Token.isOperator, hnumber]
    have hstands : standsAt (before ++ t :: n :: rest) before.length = some (t.signed n) := by
      rw [standsAt, hjoin, if_pos rfl, getElem?_place, getElem?_place_succ]
      simp [joined, Token.signed, hnumber]
    have hnone : standsAt (before ++ t :: n :: rest) (before.length + 1) = none := by
      simp [standsAt, hnext, hjoin]
    have happend : before ++ [t, n] ++ rest = before ++ t :: n :: rest := by simp
    have hlength : (before ++ [t, n]).length = before.length + 1 + 1 := by simp
    have hafter : false = unaryAfter (before ++ [t, n]) := by
      have hsplit : before ++ [t, n] = before ++ [t] ++ [n] := by simp
      rw [hsplit, unaryAfter_number hnumber]
    have hlater : Parted (before ++ [t, n]) rest := by
      simp [Parted, hnext]
    obtain ⟨hplaces, hcount⟩ := ih hafter hlater
    rw [happend, hlength] at hplaces hcount
    simp only [List.length_cons, List.range'_succ, List.filterMap_cons, hstands, hnone,
      List.countP_cons, hjoin, hnext, if_true, Bool.false_eq_true, if_false, ← hplaces, true_and]
    omega
  | case4 folds t n rest hfold ih =>
    subst hfolds
    have hjoin : joinsAt (before ++ t :: n :: rest) before.length = false := by
      rw [joinsAt_place, Bool.eq_false_iff]
      intro h
      simp only [Bool.and_eq_true, List.head?_cons, Option.any_some] at h
      exact hfold (by simp [h])
    have happend : before ++ [t] ++ n :: rest = before ++ t :: n :: rest := by simp
    have hlength : (before ++ [t]).length = before.length + 1 := by simp
    obtain ⟨hplaces, hcount⟩ := ih unaryAfter_append_singleton.symm (parted_append_singleton hjoin)
    rw [happend, hlength] at hplaces hcount
    have hcons : List.range' before.length (t :: n :: rest).length =
        before.length :: List.range' (before.length + 1) (n :: rest).length := List.range'_succ ..
    rw [hcons, List.filterMap_cons, hparted.standsAt_keep hjoin, List.countP_cons, hjoin, ← hplaces]
    simp only [List.length_cons, Bool.false_eq_true, if_false, true_and] at hcount ⊢
    omega

end

/-! ## 3. How often a sign is joined -/

/-- Each token adds one to what is kept, or joins a sign. -/
theorem length_push (kept : Kept) (t : Token) :
    (kept.push t).latest.length + (kept.push t).folded = kept.latest.length + kept.folded + 1 := by
  obtain ⟨latest, folded⟩ := kept
  cases latest with
  | nil => simp [Kept.push, Nat.add_comm]
  | cons minus before =>
    simp only [Kept.push]
    split <;> simp only [List.length_cons] <;> omega

theorem length_foldl_push (tokens : List Token) (kept : Kept) :
    (tokens.foldl Kept.push kept).latest.length + (tokens.foldl Kept.push kept).folded =
      kept.latest.length + kept.folded + tokens.length := by
  induction tokens generalizing kept with
  | nil => rfl
  | cons t rest ih =>
    rw [List.foldl_cons, ih, length_push, List.length_cons]
    omega

/-- All tokens are kept but one for each sign that is joined. -/
theorem length_joinSigns_add_folded (tokens : List Token) :
    (joinSigns true tokens).length + (tokens.foldl Kept.push Kept.empty).folded = tokens.length := by
  have hlength := length_foldl_push tokens Kept.empty
  rw [← push_eq_joinSigns, List.length_reverse, hlength]
  simp [Kept.empty]

/-! ## 4. Trimming first -/

/-- What is left of classified tokens: no white space, and from the second level
on no comments. -/
def trimmed (level : Int) (classified : List Token) : List Token :=
  classified.filter fun t =>
    t.kind != .whitespace && (decide (level < 2) || t.kind != .comment)

/-- A kind that ends up as a comment. -/
def TokenKind.isNote (kind : TokenKind) : Bool :=
  kind == .lineComment || kind == .blockComment || kind == .comment

section

variable {version : Version} {level : Int} {tokens classified : List Token}

theorem trimmed_eq_filter (hlevel : level ≠ 0) :
    trimmed level classified = classified.filter (Trim.ofLevel level).keeps := by
  rw [trimmed, Trim.ofLevel, if_neg hlevel]
  congr 1
  funext t
  by_cases htwo : 2 ≤ level
  · have hless : ¬ level < 2 := by omega
    simp [htwo, hless, Trim.keeps]
  · have hless : level < 2 := by omega
    simp [htwo, hless, Trim.keeps]

/-- A token ends up as a comment exactly if it is one to the lexer. -/
theorem isComment_final (version : Version) (t : Token) :
    Leaf.isComment (t.final version) = t.kind.isNote := by
  obtain ⟨kind, text, pos⟩ := t
  cases kind with
  | name =>
    have hname : (nameKind (Vocabulary.keywords version) text == TokenKind.comment) = false := by
      rcases nameKind_cases (Vocabulary.keywords version) text with h | h | h | h <;> rw [h.1] <;> rfl
    exact hname
  | operator =>
    simp only [Leaf.isComment, Token.final, finalKind]
    split <;> rfl
  | _ => rfl

/-- Comments may be left out before or after the tokens are classified. -/
theorem filter_map_final (tokens : List Token) :
    (tokens.map (Token.final version)).filter (!Leaf.isComment ·) =
      (tokens.filter (!·.kind.isNote)).map (Token.final version) := by
  rw [List.filter_map]
  congr 2
  funext t
  simp [isComment_final]

/-- A reduction without comments reads none. -/
theorem reduce_comments_eq (haccepts : ∀ t ∈ tokens, accepts version t.kind t.text = true) :
    reduce version .comments tokens =
      reduce version .whitespace (tokens.filter (!·.kind.isNote)) := by
  have hlater : ∀ t ∈ tokens.filter (!·.kind.isNote), accepts version t.kind t.text = true :=
    fun t ht => haccepts t (List.mem_of_mem_filter ht)
  have hkept : keptTokens version (tokens.filter (!·.kind.isNote)) =
      (keptTokens version tokens).filter (!Leaf.isComment ·) := by
    rw [keptTokens, keptTokens, List.filter_comm, filter_map_final]
  rw [reduce_comments_eq_ok_iff.2 ⟨haccepts, rfl⟩, ← hkept]
  exact (reduce_whitespace_eq_ok_iff.2 ⟨hlater, rfl⟩).symm

/-! ## 5. The whole reduction -/

/-- The tokens that a reduction gives are those that are left by trimming, each
at its place and unchanged, but for the numbers that stand right after a unary
minus: these stand at its place and are spelled with it. As many are joined as
the reduction counts and as tokens are missing. Leaving comments out is the same
as reducing a text without them. -/
theorem reduce_joins_places (hlevel : level ≠ 0)
    (hclassified : tokens.mapM (classify version (Vocabulary.keywords version)) = .ok classified) :
    ∃ reduction : Reduction,
      reduce version (.ofLevel level) tokens = .ok reduction ∧
      reduction.tokens = (List.range (trimmed level classified).length).filterMap
        (standsAt (trimmed level classified)) ∧
      reduction.folded = (List.range (trimmed level classified).length).countP
        (joinsAt (trimmed level classified)) ∧
      reduction.tokens.length + reduction.folded = (trimmed level classified).length ∧
      (2 ≤ level → reduce version (.ofLevel 1) (tokens.filter (!·.kind.isNote)) = .ok reduction) := by
  obtain ⟨haccepts, rfl⟩ := mapM_classify_eq_ok_iff.1 hclassified
  have hreduce := (reduce_eq_ok_iff (Trim.ofLevel_ne_none hlevel)).2
    ⟨haccepts, Eq.refl (Reduction.mk _ _)⟩
  rw [← trimmed_eq_filter hlevel] at hreduce
  have hplaces := @joinSigns_eq_places [] (trimmed level (tokens.map (Token.final version))) true
    rfl rfl
  have hlength := length_joinSigns_add_folded (trimmed level (tokens.map (Token.final version)))
  rw [List.nil_append, List.length_nil, ← List.range_eq_range'] at hplaces
  refine ⟨_, hreduce, hplaces.1, ?_, hlength, fun htwo => ?_⟩
  · show Kept.folded _ = _
    omega
  · have hcomments : Trim.ofLevel level = .comments := by rw [Trim.ofLevel, if_neg hlevel, if_pos htwo]
    rw [hcomments] at hreduce
    rw [← hreduce]
    exact (reduce_comments_eq haccepts).symm

end

/-- Of a chain of minuses with comments in it, those are joined that no operand
comes before; the comment before the last number is gone when signs are joined. -/
theorem reduce_joins_places_chain :
    (2 : Int) ≠ 0 ∧
    [⟨.operator, "-", ⟨1, 1⟩⟩, ⟨.lineComment, "--a", ⟨1, 3⟩⟩, ⟨.operator, "-", ⟨2, 1⟩⟩,
        ⟨.hexNumber, "0x5", ⟨2, 3⟩⟩, ⟨.operator, "-", ⟨2, 7⟩⟩, ⟨.operator, "-", ⟨2, 9⟩⟩,
        ⟨.blockComment, "--[[b]]", ⟨2, 11⟩⟩, ⟨.number, "6", ⟨2, 18⟩⟩].mapM
          (classify 1 (Vocabulary.keywords 1)) =
      .ok [⟨.operator, "-", ⟨1, 1⟩⟩, ⟨.comment, "--a", ⟨1, 3⟩⟩, ⟨.operator, "-", ⟨2, 1⟩⟩,
        ⟨.number, "0x5", ⟨2, 3⟩⟩, ⟨.operator, "-", ⟨2, 7⟩⟩, ⟨.operator, "-", ⟨2, 9⟩⟩,
        ⟨.comment, "--[[b]]", ⟨2, 11⟩⟩, ⟨.number, "6", ⟨2, 18⟩⟩] ∧
    reduce 1 .comments [⟨.operator, "-", ⟨1, 1⟩⟩, ⟨.lineComment, "--a", ⟨1, 3⟩⟩,
        ⟨.operator, "-", ⟨2, 1⟩⟩, ⟨.hexNumber, "0x5", ⟨2, 3⟩⟩, ⟨.operator, "-", ⟨2, 7⟩⟩,
        ⟨.operator, "-", ⟨2, 9⟩⟩, ⟨.blockComment, "--[[b]]", ⟨2, 11⟩⟩, ⟨.number, "6", ⟨2, 18⟩⟩] =
      .ok ⟨[⟨.operator, "-", ⟨1, 1⟩⟩, ⟨.number, "-0x5", ⟨2, 1⟩⟩, ⟨.operator, "-", ⟨2, 7⟩⟩,
        ⟨.number, "-6", ⟨2, 9⟩⟩], 2⟩ := by
  have hlevel : (2 : Int) ≠ 0 := by decide
  refine ⟨hlevel, by decide +kernel, ?_⟩
  obtain ⟨⟨tokens, folded⟩, hreduce, htokens, hfolded, -⟩ :=
    @reduce_joins_places 1 2 [⟨.operator, "-", ⟨1, 1⟩⟩, ⟨.lineComment, "--a", ⟨1, 3⟩⟩,
      ⟨.operator, "-", ⟨2, 1⟩⟩, ⟨.hexNumber, "0x5", ⟨2, 3⟩⟩, ⟨.operator, "-", ⟨2, 7⟩⟩,
      ⟨.operator, "-", ⟨2, 9⟩⟩, ⟨.blockComment, "--[[b]]", ⟨2, 11⟩⟩, ⟨.number, "6", ⟨2, 18⟩⟩]
      [⟨.operator, "-", ⟨1, 1⟩⟩, ⟨.comment, "--a", ⟨1, 3⟩⟩, ⟨.operator, "-", ⟨2, 1⟩⟩,
      ⟨.number, "0x5", ⟨2, 3⟩⟩, ⟨.operator, "-", ⟨2, 7⟩⟩, ⟨.operator, "-", ⟨2, 9⟩⟩,
      ⟨.comment, "--[[b]]", ⟨2, 11⟩⟩, ⟨.number, "6", ⟨2, 18⟩⟩] hlevel (by decide +kernel)
  refine hreduce.trans (congrArg Except.ok ?_)
  have hplaces : tokens = [⟨.operator, "-", ⟨1, 1⟩⟩, ⟨.number, "-0x5", ⟨2, 1⟩⟩,
      ⟨.operator, "-", ⟨2, 7⟩⟩, ⟨.number, "-6", ⟨2, 9⟩⟩] := htokens.trans (by decide +kernel)
  have hcount : folded = 2 := hfolded.trans (by decide +kernel)
  rw [hplaces, hcount]

end LuaLayout
