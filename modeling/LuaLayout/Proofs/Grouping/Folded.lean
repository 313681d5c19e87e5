/-
LuaLayout.Proofs.Grouping.Folded — what joining signs does to the grouping.

Joining a number to its minus makes a literal of the two before the powers of
operators are looked at. A minus binds looser than a power and a literal does
not, so where a signed number is the base of a power the grouping is another
one: the minus goes into the base. Everywhere else a joined number stands for a
minus that applies to the number, and nothing else is regrouped.

The tokens without joined signs are read as the tree with its signed numbers
taken apart. The place of such a number is that of the token right after its
minus, and no two tokens of a text have the same place.
-/
import LuaLayout.Proofs.Format.Causes
import LuaLayout.Proofs.Grouping.Reading

namespace LuaLayout

open Lexeme

/-! ## 1. Leaves of tokens that were joined -/

/-- The place of the token right after the one at a place. -/
def placeAfter : List Token → Position → Position
  | t :: u :: rest, p => if t.pos = p then u.pos else placeAfter (u :: rest) p
  | _, p => p

theorem placeAfter_eq {before after : List Token} {t u : Token}
    (hplaces : ((before ++ t :: u :: after).map (·.pos)).Nodup) :
    placeAfter (before ++ t :: u :: after) t.pos = u.pos := by
  induction before with
  | nil => exact if_pos rfl
  | cons v before ih =>
    rw [List.cons_append, List.map_cons, List.nodup_cons] at hplaces
    obtain ⟨hv, hlater⟩ := hplaces
    have hne : v.pos ≠ t.pos := fun heq => hv (by simp [heq])
    have hstep : ∀ w rest, placeAfter (v :: w :: rest) t.pos = placeAfter (w :: rest) t.pos :=
      fun w rest => if_neg hne
    cases before with
    | nil => exact (hstep _ _).trans (ih hlater)
    | cons w before => exact (hstep _ _).trans (ih hlater)

section

variable {version : Version} {folds : Bool} {tokens : List Token} {place : Position → Position}

/-- A joined number is taken apart into the two tokens that were joined. -/
theorem spread_signed {minus number : Token} {comments : List Token}
    (hminus : minus.isOperator "-" = true) (hnumber : number.kind = .number)
    (hlex : number.Lexical version) (hplace : place minus.pos = number.pos) :
    Leaf.spread place ⟨minus.signed number, comments⟩ = [⟨minus, []⟩, ⟨number, comments⟩] := by
  obtain ⟨kind, hnumeral, hn⟩ := hlex.numeral hnumber
  obtain ⟨d, tail, hd, hbegins⟩ := numeral_starts hnumeral hn
  have hdigits : unsigned? (minus.signed number).text = some number.text := by
    rw [unsigned?, Token.signed, unsign_minus hd hbegins]
  obtain ⟨hkind, htext⟩ := Token.isOperator_iff.1 hminus
  have hsigned : (minus.signed number).kind = .number := hnumber
  rw [Leaf.spread, Leaf.signed?, if_pos hsigned, hdigits]
  obtain ⟨minusKind, minusText, minusPos⟩ := minus
  obtain ⟨numberKind, numberText, numberPos⟩ := number
  subst hkind htext hnumber
  change place minusPos = numberPos at hplace
  simp only [Option.map_some, Token.signed, hplace]

/-- A token that is one lexeme is not taken apart. -/
theorem Token.Lexical.spread_eq {t : Token} {comments : List Token} (h : t.Lexical version)
    (hcomment : Leaf.isComment t = false) : Leaf.spread place ⟨t, comments⟩ = [⟨t, comments⟩] := by
  have hunsign := h.unsign_eq (Leaf.isComment_eq_false_iff.1 hcomment)
  exact Leaf.Unsigned.spread_eq fun _ => unsigned?_eq_none_iff.2 hunsign

/-- The leaves of joined tokens, with the signed numbers taken apart, are the
leaves of the tokens. -/
theorem flatMap_spread_joinSigns (hlex : ∀ u ∈ tokens, u.Lexical version)
    (hplace : ∀ before t u after, tokens = before ++ t :: u :: after → place t.pos = u.pos) :
    (Leaf.ofTokens (joinSigns folds tokens)).2.flatMap (Leaf.spread place) =
      (Leaf.ofTokens tokens).2 := by
  fun_induction joinSigns folds tokens with
  | case1 folds => rfl
  | case2 folds t =>
    rw [Leaf.ofTokens_cons]
    cases hcomment : Leaf.isComment t with
    | true => rfl
    | false =>
      simp only [Bool.false_eq_true, if_false, List.flatMap_cons,
        (hlex t (by simp)).spread_eq hcomment]
      rfl
  | case3 folds t n rest hfold ih =>
    simp only [Bool.and_eq_true, beq_iff_eq] at hfold
    obtain ⟨⟨hnumber, hminus⟩, -⟩ := hfold
    have hrest : ∀ u ∈ rest, u.Lexical version := fun u hu => hlex u (by simp [hu])
    have hleaves := ih hrest fun before u v after heq => hplace (t :: n :: before) u v after (by
      rw [heq]
      rfl)
    have hkind := (Token.isOperator_iff.1 hminus).1
    have ht : Leaf.isComment t = false := Leaf.isComment_eq_false_iff.2 (by simp [hkind])
    have hn : Leaf.isComment n = false := Leaf.isComment_eq_false_iff.2 (by simp [hnumber])
    have hs : Leaf.isComment (t.signed n) = false :=
      Leaf.isComment_eq_false_iff.2 (by simp [Token.signed, hnumber])
    simp only [Leaf.ofTokens_cons, ht, hn, hs, Bool.false_eq_true, if_false, List.flatMap_cons,
      hleaves, (ofTokens_joinSigns hrest).1,
      spread_signed hminus hnumber (hlex n (by simp)) (hplace [] t n rest rfl)]
    rfl
  | case4 folds t n rest hfold ih =>
    have hrest : ∀ u ∈ n :: rest, u.Lexical version := fun u hu =>
      hlex u (List.mem_cons_of_mem _ hu)
    have hleaves := ih hrest fun before u v after heq => hplace (t :: before) u v after (by
      rw [heq]
      rfl)
    rw [Leaf.ofTokens_cons t, Leaf.ofTokens_cons t, (ofTokens_joinSigns hrest).1]
    cases hcomment : Leaf.isComment t with
    | true => exact hleaves
    | false =>
      simp only [Bool.false_eq_true, if_false, List.flatMap_cons, hleaves,
        (hlex t (by simp)).spread_eq hcomment]
      rfl

end

/-! ## 2. Groupings of tokens -/

/-- The groupings in the program that the tokens are read as, which is the one
that is laid out for them. -/
def groupingsOf? (tokens : List Token) : Option (List Grouping) :=
  match (Rules.forLeaves true (Leaf.ofTokens tokens).2).block (Leaf.ofTokens tokens).2 with
  | .ok (program, []) => some program.groupings
  | _ => none

/-- Tokens have groupings exactly if they are formatted: both come of one reading. -/
theorem groupingsOf?_isSome_iff {tokens : List Token} :
    (groupingsOf? tokens).isSome = true ↔ ∃ text, formatTokens .program tokens = .ok text := by
  rw [groupingsOf?, formatTokens_eq]
  cases (Rules.forLeaves true (Leaf.ofTokens tokens).2).block (Leaf.ofTokens tokens).2 with
  | error failure => simp
  | ok p =>
    obtain ⟨program, rest⟩ := p
    cases rest <;> simp

theorem groupingsOf?_eq {tokens : List Token} {program : Block}
    (hleaves : (Leaf.ofTokens tokens).2 = program.leaves) (hfits : program.Fits none) :
    groupingsOf? tokens = some program.groupings := by
  have hread := Rules.forLeaves_block_eq_ok_iff.2 ⟨(List.append_nil _).symm, hfits⟩
  rw [groupingsOf?, hleaves, hread]

/-- What joining signs does to the grouping of a program that is formatted. The
classified tokens without white space, none of them joined, group as the reduced
ones do after every number with a minus is taken apart into a minus and a number
and every power binds tighter than the minus. To read such a number as a minus
applied to the number alone, wherever it stands, gives the same exactly if none
of them is the base of a power. -/
theorem groupings_folded {version : Version} {source text : String}
    (h : format version source = .ok text) :
    ∃ raw classified reduction folded, tokenize source = .ok raw ∧
      raw.mapM (classify version (Vocabulary.keywords version)) = .ok classified ∧
      reduce version .whitespace raw = .ok reduction ∧
      groupingsOf? reduction.tokens = some folded ∧
      groupingsOf? (classified.filter Trim.whitespace.keeps) = some (unjoinAll true folded) ∧
      (unjoinAll true folded = unjoinAll false folded ↔ ¬ AnySignedBase folded) := by
  obtain ⟨raw, tree, hreads, -⟩ := format_eq_ok_iff.1 h
  have hsub := map_pos_keptTokens version raw
  have hnodup : ((keptTokens version raw).map (·.pos)).Nodup :=
    ((pos_pairwise_of_tokenize hreads.tokens).sublist hsub).imp Position.Before.ne
  have hplace : ∀ before t u after, keptTokens version raw = before ++ t :: u :: after →
      placeAfter (keptTokens version raw) t.pos = u.pos := by
    intro before t u after heq
    rw [heq] at hnodup ⊢
    exact placeAfter_eq hnodup
  let place := placeAfter (keptTokens version raw)
  obtain ⟨hfits, hleaves⟩ : (tree.spread place).Fits none ∧
      (tree.spread place).leaves = tree.leaves.flatMap (Leaf.spread place) :=
    tree.spread_fits hreads.fits
  have hunfolded : (Leaf.ofTokens (keptTokens version raw)).2 = (tree.spread place).leaves := by
    rw [hleaves, ← hreads.leaves, flatMap_spread_joinSigns hreads.lexical hplace]
  have hgroupings := groupingsOf?_eq hunfolded hfits
  rw [Block.groupings_spread] at hgroupings
  exact ⟨raw, _, _, tree.groupings, hreads.tokens, mapM_classify_eq_ok_iff.2 ⟨hreads.accepted, rfl⟩,
    reduce_whitespace_eq_ok_iff.2 ⟨hreads.accepted, rfl⟩, groupingsOf?_eq hreads.leaves hreads.fits,
    hgroupings, unjoinAll_eq_iff _⟩

/-- The minus of a base: joined, it goes into the base, and apart it applies to
the power. To read the joined number as a minus applied to the number alone does
not make up for it. -/
theorem groupings_folded_power :
    let joined : List Token :=
      [⟨.keyword, "return", ⟨1, 1⟩⟩, ⟨.number, "-2", ⟨1, 8⟩⟩, ⟨.operator, "^", ⟨1, 11⟩⟩,
        ⟨.number, "2", ⟨1, 13⟩⟩]
    let apart : List Token :=
      [⟨.keyword, "return", ⟨1, 1⟩⟩, ⟨.operator, "-", ⟨1, 8⟩⟩, ⟨.number, "2", ⟨1, 9⟩⟩,
        ⟨.operator, "^", ⟨1, 11⟩⟩, ⟨.number, "2", ⟨1, 13⟩⟩]
    let folded : List Grouping := [.word "return", .binary "^" (.number "-2") (.number "2")]
    format 1 "return -2 ^ 2" = .ok "return -2 ^ 2\n" ∧
      groupingsOf? joined = some folded ∧
      groupingsOf? apart =
        some [.word "return", .unary "-" (.binary "^" (.number "2") (.number "2"))] ∧
      unjoinAll false folded =
        [.word "return", .binary "^" (.unary "-" (.number "2")) (.number "2")] := by
  intro joined apart folded
  have hformat : format 1 "return -2 ^ 2" = .ok "return -2 ^ 2\n" := by decide +kernel
  have hreduced : ((tokenize "return -2 ^ 2").bind fun raw =>
      (reduce 1 .whitespace raw).map (·.tokens)) = .ok joined := by decide +kernel
  have hclassified : ((tokenize "return -2 ^ 2").bind fun raw =>
      (raw.mapM (classify 1 (Vocabulary.keywords 1))).map
        (·.filter Trim.whitespace.keeps)) = .ok apart := by decide +kernel
  have hjoined : groupingsOf? joined = some folded := rfl
  obtain ⟨raw, classified, reduction, grouped, hraw, haccepted, hreduction, hgrouped, hapart, -⟩ :=
    groupings_folded hformat
  simp only [hraw, hreduction, haccepted, Except.bind, Except.map, Except.ok.injEq]
    at hreduced hclassified
  rw [hreduced, hjoined] at hgrouped
  rw [hclassified, ← Option.some.inj hgrouped] at hapart
  exact ⟨hformat, hjoined, hapart, rfl⟩

end LuaLayout
