/-
LuaLayout.Proofs.Layout.RereadParts — rereading what is not a tree of its own.

Where leaves spell the words of a part, they are those of such a part again.
This module has the steps for that: what the token after a part must tell, how
parts begin, names in a row, and signs. A minus that is joined to its number in
one of two readings only makes the readings differ in shape: a minus binds looser
than the power in front of which it stands, and a number with its minus does not.
-/
import Mathlib.Data.List.Forall2
import LuaLayout.Proofs.Layout.Spelled
import LuaLayout.Proofs.Parser.Layers

namespace LuaLayout

open Item (flat)
open Leaf (front)

variable {version : Version} {tidy : Bool} {limit : Int} {next next' : Option Token} {indent : Int}
  {more : List String} {text : String} {leaves rest : List Leaf}

/-! ## 1. The token after a part -/

/-- The texts that end an expression whatever it is. -/
def enders : List String := [")", "]", "\x7d", ",", ";", "=", "do", "then", "end"]

theorem Passes.same {other : Option Token} (h : Passes next next') (hsame : Same next' other) :
    Passes next other where
  expr limit hends := hsame.passes.expr limit (h.expr limit hends)
  access hends := hsame.passes.access (h.access hends)

/-- A text that ends every expression stands in for every token. -/
theorem passes_ender (htext : text ∈ enders) : Passes next (headOf version (text :: more)) := by
  have hall : ∀ t ∈ enders, (t ∈ Vocabulary.baseKeywords ∨
      t ∈ Vocabulary.allOperators ∧ t ≠ Vocabulary.ellipsis) ∧
      (∀ p ∈ Powers.table, p.1 ≠ t) ∧ t ∉ [".", ":", "[", "\x7b", "("] := by decide
  obtain ⟨hsort, hpowers, hsuffix⟩ := hall text htext
  have hkind : (spell version text).kind ≠ .string := by
    rcases hsort with hkeyword | ⟨hoperator, hdots⟩
    · rw [(spell_keyword hkeyword).2]
      exact nofun
    · rw [spell_operator hoperator hdots]
      exact nofun
  constructor
  · intro limit _
    refine endsExpr_of_none fun u hu => ?_
    obtain rfl : spell version text = u := Option.some.inj hu
    refine Option.eq_none_iff_forall_ne_some.2 fun powers hq => ?_
    exact hpowers _ (mem_table_of_binaryPowers? hq).1 rfl
  · intro _ u hu
    obtain rfl : spell version text = u := Option.some.inj hu
    simp only [List.mem_cons, List.not_mem_nil, or_false, not_or] at hsuffix
    simp [Token.startsSuffix, Token.isOperator, hkind, hsuffix]

/-- A leaf that is one lexeme is what its text spells. -/
theorem same_head {m : Leaf} (hg : m.token.Genuine version)
    (hplain : unsign m.token.text = [m.token.text]) :
    Same (some m.token) (headOf version (m.token.text :: more)) := by
  rcases hg.spells with ⟨-, -, hbare⟩ | ⟨number, -, hsigned, -⟩
  · have hspell : (spell version m.token.text).bare = spell version m.token.text := rfl
    rw [Same, headOf, List.head?_cons, Option.map_some, Option.map_some, Option.map_some, hspell,
      hbare]
  · exact absurd (congrArg List.length (hplain.symm.trans hsigned)) (by simp)

theorem Leaf.Says.same {m : Leaf} (h : m.Says text) (hg : m.token.Genuine version)
    (hfixed : text ∈ fixedTexts := by decide) :
    Same (some m.token) (headOf version (text :: more)) := by
  obtain rfl : m.token.text = text := h
  exact same_head hg (unsign_fixed hfixed).1

/-- What leaves spell begins like their first text, and texts that stand in for a
token do so as well in other leaves. -/
theorem Spelled.passes {folds : Bool} (h : Spelled version folds more leaves)
    (hminus : more.head? = some "-" → folds = false) (hpasses : Passes next (headOf version more)) :
    Passes next (front leaves none) := hpasses.same (h.front_same hminus)

/-- A part that begins with a word of its first leaf is worded by that text. -/
theorem worded_begins (tidy : Bool) {l : Leaf} {items : List Item} (ls : List Leaf)
    (hbegins : BeginsWith l.token.text items) (hplain : unsign l.token.text = [l.token.text]) :
    ∃ ws, worded tidy (l :: ls) items = l.token.text :: ws := by
  obtain ⟨remarks, others, rfl⟩ := hbegins
  cases tidy
  · exact ⟨_, by simp only [worded, List.flatMap_cons, hplain]; rfl⟩
  · exact ⟨_, by simp only [worded, Item.texts, hplain]; rfl⟩

/-! ## 2. Operators -/

theorem binary_operator {t : Token} {powers : Powers}
    (h : Parser.continuing? limit t = some powers) : t.kind = .operator ∧
      Parser.binaryPowers? t = some powers ∧ limit < powers.left := by
  obtain ⟨hpowers, hlt⟩ := continuing?_eq_some_iff.1 h
  exact ⟨(mem_table_of_binaryPowers? hpowers).2, hpowers, hlt⟩

/-- An operator that goes on under the limit of unary operators is a power. -/
theorem left_of_unary {t : Token} {powers : Powers} (h : Parser.binaryPowers? t = some powers)
    (hlt : Powers.unary < powers.left) (hlimit : limit ≤ 13) : limit < powers.left := by
  have hall : ∀ p ∈ Powers.table, Powers.unary < p.2.left → 13 < p.2.left := by decide
  have hleft : 13 < powers.left := hall _ (mem_table_of_binaryPowers? h).1 hlt
  omega

theorem OperationsJoin.mono {ops : List (Leaf × Expr)} (h : OperationsJoin Powers.unary next ops)
    (hlimit : limit ≤ 13) : OperationsJoin limit next ops := by
  induction ops with
  | nil => trivial
  | cons p rest ih =>
    obtain ⟨⟨powers, hpowers, hright⟩, hrest⟩ := h
    obtain ⟨hbinary, hlt⟩ := continuing?_eq_some_iff.1 hpowers
    exact ⟨⟨powers, continuing?_eq_some_iff.2 ⟨hbinary, left_of_unary hbinary hlt hlimit⟩, hright⟩,
      ih hrest⟩

/-- Operators fall into those that a unary operator takes and the rest. -/
theorem OperationsFit.cut {ops : List (Leaf × Expr)} (h : OperationsFit limit next ops)
    (hlimit : limit ≤ 13) :
    ∃ xs ys, ops = xs ++ ys ∧ OperationsFit Powers.unary (front (operationsLeaves ys) next) xs ∧
      OperationsFit limit next ys := by
  induction ops with
  | nil =>
    refine ⟨[], [], rfl, ?_, h⟩
    refine endsExpr_of_le fun u hu q hq => Int.not_lt.1 fun hlt => ?_
    have hends : Parser.continuing? limit u = none := by
      have hnone : next.bind (Parser.continuing? limit) = none := h
      rwa [show next = some u from hu] at hnone
    rw [continuing?_eq_some_iff.2 ⟨hq, left_of_unary hq hlt hlimit⟩] at hends
    cases hends
  | cons p rest ih =>
    obtain ⟨operator, right⟩ := p
    obtain ⟨⟨powers, hpowers, hright⟩, hrest⟩ := id h
    obtain ⟨hbinary, -⟩ := continuing?_eq_some_iff.1 hpowers
    by_cases hlt : Powers.unary < powers.left
    · obtain ⟨xs, ys, rfl, hxs, hys⟩ := ih hrest
      refine ⟨(operator, right) :: xs, ys, rfl, ⟨⟨powers, continuing?_eq_some_iff.2 ⟨hbinary, hlt⟩,
        ?_⟩, hxs⟩, hys⟩
      rwa [operationsLeaves_append, Leaf.front_append] at hright
    · refine ⟨[], _, rfl, ?_, h⟩
      refine endsExpr_of_le fun u hu q hq => ?_
      obtain rfl : operator.token = u := Option.some.inj hu
      rw [hbinary] at hq
      cases hq
      exact Int.not_lt.1 hlt

/-- What comes after an operand: the first operator, or what comes after them all. -/
theorem operations_passes (tidy : Bool) (indent : Int) {ops : List (Leaf × Expr)}
    (h : OperationsFit limit next ops)
    (hg : AllGenuine version (operationsLeaves ops)) (hnext : Passes next (headOf version more)) :
    Passes (front (operationsLeaves ops) next) (headOf version
      (worded tidy (operationsLeaves ops) (operationsLayout false indent ops) ++ more)) := by
  cases ops with
  | nil => simpa [operationsLeaves, operationsLayout] using hnext
  | cons p rest =>
    obtain ⟨operator, right⟩ := p
    obtain ⟨⟨powers, hpowers, -⟩, -⟩ := h
    have hgoperator := (AllGenuine.cons_iff.1 hg).1
    have hkind := (binary_operator hpowers).1
    have hplain := hgoperator.unsign_eq (by rw [hkind]; decide)
    simp only [operationsLeaves, operationsLayout, List.cons_append, worded_space, worded_leaf, hplain,
      List.nil_append]
    exact (same_head hgoperator hplain).passes

/-! ## 3. How expressions begin -/

/-- Items that look the same begin with the same character. -/
theorem head_eq_of_flat {t t' : String} {items items' : List Item} (h : BeginsWith t items)
    (h' : BeginsWith t' items') (ht : t ≠ "") (ht' : t' ≠ "") (hflat : flat items' = flat items) :
    t'.toList.head? = t.toList.head? := by
  have hfirst : ∀ {t : String} {items : List Item}, BeginsWith t items → t ≠ "" →
      ∃ w remarks others, flat items = .word w remarks :: others ∧ w.toList.head? = t.toList.head? := by
    rintro t items ⟨remarks, others, rfl⟩ hne
    rcases unsign_cases t with hplain | ⟨number, htext, hsigned⟩
    · exact ⟨t, [], flat others, by simp [flat, hplain], rfl⟩
    · refine ⟨"-", [], .word number [] :: flat others, by simp [flat, hsigned], ?_⟩
      rw [htext, String.toList_append]
      rfl
  obtain ⟨w, remarks, others, hw, heq⟩ := hfirst h ht
  obtain ⟨w', remarks', others', hw', heq'⟩ := hfirst h' ht'
  rw [hw, hw'] at hflat
  obtain ⟨⟨rfl, -⟩, -⟩ : (w' = w ∧ remarks' = remarks) ∧ others' = others := by simpa using hflat
  rw [← heq, ← heq']

theorem Token.Genuine.ne_empty {t : Token} (h : t.Genuine version) : t.text ≠ "" := by
  obtain ⟨d, tail, hd, -⟩ := h.starts
  intro hempty
  rw [hempty] at hd
  cases hd

section

variable {e e' : Expr} {limit' : Int}

theorem Expr.startsWith_eq (h : e.Fits limit next) (h' : e'.Fits limit' next')
    (hg : AllGenuine version e.leaves) (hg' : AllGenuine version e'.leaves)
    (hflat : flat (e'.layout false indent) = flat (e.layout false indent)) (c : Char) :
    e'.head.token.startsWith c = e.head.token.startsWith c := by
  rw [Token.startsWith, Token.startsWith, head_eq_of_flat (Expr.begins indent h)
    (Expr.begins indent h') hg.head.ne_empty hg'.head.ne_empty hflat]

/-- An expression begins with a bracket only in a long string. -/
theorem Expr.startsWithLongString_iff (h : e.Fits limit next) (hg : AllGenuine version e.leaves) :
    e.startsWithLongString = e.head.token.startsWith '[' := by
  obtain ⟨d, tail, hd, -, -, hstring⟩ := hg.head.expr_opens (Expr.Fits.starts h)
  rw [Expr.startsWithLongString]
  cases hbracket : e.head.token.startsWith '[' with
  | false => exact Bool.and_false _
  | true =>
    have hfirst : d = '[' := by simpa [Token.startsWith, hd] using hbracket
    simp [hstring hfirst]

theorem Expr.startsWithLongString_eq (h : e.Fits limit next) (h' : e'.Fits limit' next')
    (hg : AllGenuine version e.leaves) (hg' : AllGenuine version e'.leaves)
    (hflat : flat (e'.layout false indent) = flat (e.layout false indent)) :
    e'.startsWithLongString = e.startsWithLongString := by
  rw [Expr.startsWithLongString_iff h hg, Expr.startsWithLongString_iff h' hg',
    Expr.startsWith_eq h h' hg hg' hflat]

theorem Expr.unarySpace_eq (h : e.Fits limit next) (h' : e'.Fits limit' next')
    (hg : AllGenuine version e.leaves) (hg' : AllGenuine version e'.leaves)
    (hflat : flat (e'.layout false indent) = flat (e.layout false indent)) (operator : String) :
    unarySpace operator e' = unarySpace operator e := by
  rw [unarySpace, unarySpace, Expr.startsWith_eq h h' hg hg' hflat]

/-- No expression begins with a closing bracket. -/
theorem Expr.front_noneOf (h : e.Fits limit next) (hg : AllGenuine version e.leaves) :
    NoneOf [")", "\x7d"] (front e.leaves none) := by
  rw [Expr.front_leaves]
  rintro t ⟨⟩ hmem
  obtain ⟨d, tail, hd, hcases⟩ := hg.head.expr_starts (Expr.Fits.starts h)
  have hchar : d = ')' ∨ d = '\x7d' := by
    rcases List.mem_cons.1 hmem with htext | hmem
    · rw [htext] at hd
      exact .inl (List.cons.inj hd).1.symm
    · rw [List.mem_singleton.1 hmem] at hd
      exact .inr (List.cons.inj hd).1.symm
  rcases hchar with rfl | rfl <;>
    rcases hcases with h | h | h | ⟨-, h⟩ <;> exact absurd h (by decide)

end

theorem operations_noneOf {ops : List (Leaf × Expr)} (h : OperationsFit limit next ops)
    (hnext : NoneOf ["="] next) : NoneOf ["="] (front (operationsLeaves ops) next) := by
  cases ops with
  | nil => exact hnext
  | cons p rest =>
    obtain ⟨⟨powers, hpowers, -⟩, -⟩ := h
    have hall : ∀ p ∈ Powers.table, p.1 ≠ "=" := by decide
    have hne := hall _ (mem_table_of_binaryPowers? (continuing?_eq_some_iff.1 hpowers).1).1
    rintro t ⟨⟩ hmem
    exact hne (List.mem_singleton.1 hmem)

/-- No suffix begins with an equals sign. -/
theorem Suffix.front_noneOf {x : Suffix} (h : x.Fits) (hg : AllGenuine version x.leaves) :
    NoneOf ["="] (front x.leaves none) := by
  have hsymbol : ∀ {l : Leaf} {text : String} {ls : List Leaf}, l.IsSymbol text → text ≠ "=" →
      NoneOf ["="] (front (l :: ls) none) := by
    rintro l text ls hl hne t ⟨⟩ hmem
    exact hne ((Token.isOperator_iff.1 hl).2.symm.trans (List.mem_singleton.1 hmem))
  cases x with
  | text string =>
    obtain ⟨d, tail, hd, hquote⟩ := (AllGenuine.cons_iff.1 hg).1.string_starts h
    rintro t ⟨⟩ hmem
    rw [List.mem_singleton.1 hmem] at hd
    cases hd
    exact absurd hquote (by decide)
  | member separator name =>
    rcases h.1 with hdot | hcolon
    · exact hsymbol hdot (by decide)
    · exact hsymbol hcolon (by decide)
  | index opening key closing => exact hsymbol h.1 (by decide)
  | table fields =>
    obtain ⟨ls, hls⟩ := fields.leaves_eq
    simp only [Suffix.leaves, hls]
    exact hsymbol h.1 (by decide)
  | call opening arguments closing => cases arguments <;> exact hsymbol h.1 (by decide)

theorem suffixes_noneOf {xs : List Suffix} (h : SuffixesFit next xs)
    (hg : AllGenuine version (suffixesLeaves xs)) (hnext' : NoneOf ["="] next') :
    NoneOf ["="] (front (suffixesLeaves xs) next') := by
  cases xs with
  | nil => exact hnext'
  | cons x rest =>
    have hx := Suffix.front_noneOf h.1 (AllGenuine.append_iff.1 hg).1
    obtain ⟨l, ls, hl⟩ := x.leaves_eq
    rw [hl] at hx
    simp only [suffixesLeaves, hl, List.cons_append]
    exact hx

/-- A name that begins an expression stands before no equals sign, unless the
expression ends with it. -/
theorem Expr.tail_noneOf {e : Expr} (h : e.Fits limit next) (hg : AllGenuine version e.leaves)
    (hname : e.head.IsName) (hnext : NoneOf ["="] next) :
    NoneOf ["="] (front e.leaves.tail next) := by
  obtain ⟨operand, operations⟩ := e
  obtain ⟨hoperand, hoperations⟩ := h
  obtain ⟨name, suffixes, rfl⟩ := hoperand.eq_access hname
  have hgsuffixes : AllGenuine version (suffixesLeaves suffixes) :=
    (AllGenuine.append_iff.1 (AllGenuine.append_iff.1 hg).1).2
  simp only [Expr.leaves, Operand.leaves, Access.leaves, Root.leaves, List.cons_append,
    List.nil_append, List.tail_cons, Leaf.front_append]
  exact suffixes_noneOf hoperand.2 hgsuffixes (operations_noneOf hoperations hnext)

/-! ## 4. Parts without expressions -/

/-- The items of a separator and what comes after it. -/
def pairItems (separator : String) (gap : List Item) (p : Leaf × Leaf) : List Item :=
  p.1.wordAs separator :: (gap ++ [p.2.word])

theorem commaNames_eq (names : List (Leaf × Leaf)) :
    commaNames names = names.flatMap (pairItems "," [.space]) := rfl

theorem path_eq (separator : String) (path : List (Leaf × Leaf)) :
    path.flatMap (fun (mark, part) => [mark.wordAs separator, part.word]) =
      path.flatMap (pairItems separator []) := rfl

/-- The pairs are alike, one by one. -/
abbrev PairsAlike (pairs' pairs : List (Leaf × Leaf)) : Prop :=
  List.Forall₂ (fun p' p => p'.1.Alike p.1 ∧ p'.2.Alike p.2) pairs' pairs

/-- Names, or an ellipsis, after separators. -/
theorem pairs_reread {separator : String} {gap : List Item}
    (hseparator : separator ∈ fixedTexts)
    (hgap : gap = [] ∨ gap = [.space]) :
    ∀ {pairs : List (Leaf × Leaf)} {folds : Bool} {leaves : List Leaf},
      (∀ p ∈ pairs, p.1.Says separator ∧ p.2.token.kind ≠ .number ∧ p.2.token.kind ≠ .operator) →
      AllGenuine version (Leaf.ofPairs Leaf.alone pairs) →
      Spelled version folds (worded tidy (Leaf.ofPairs Leaf.alone pairs)
        (pairs.flatMap (pairItems separator gap)) ++ more) leaves →
      ∃ pairs' rest folds', leaves = Leaf.ofPairs Leaf.alone pairs' ++ rest ∧
        PairsAlike pairs' pairs ∧
        flat (pairs'.flatMap (pairItems separator gap)) =
          flat (pairs.flatMap (pairItems separator gap)) ∧
        Spelled version folds' more rest
  | [], _, _, _, _, hs => ⟨[], _, _, rfl, .nil, rfl, by simpa [Leaf.ofPairs] using hs⟩
  | (mark, name) :: pairs, _, _, h, hg, hs => by
    obtain ⟨⟨hmark, hnumber, hoperator⟩, hpairs⟩ := List.forall_mem_cons.1 h
    simp only [Leaf.ofPairs, List.cons_append, AllGenuine.cons_iff, Leaf.alone,
      List.nil_append] at hg
    obtain ⟨hgmark, hgname, hgpairs⟩ := hg
    have hplain := hgname.unsign_eq hnumber
    have hspace : ∀ ls is, worded tidy ls (gap ++ is) = worded tidy ls is := by
      rcases hgap with rfl | rfl
      · exact fun _ _ => rfl
      · exact fun _ _ => worded_space
    simp only [Leaf.ofPairs, Leaf.alone, List.flatMap_cons, pairItems, List.cons_append,
      List.append_assoc, List.nil_append, worded_fixed hmark hseparator, hspace, worded_leaf,
      hplain] at hs
    obtain ⟨mark', rest, rfl, hmark', hs⟩ := hs.fixed hmark hgmark hseparator
    obtain ⟨name', rest, rfl, hname', hs⟩ := hs.take hgname hplain fun heq =>
      absurd heq (hgname.ne_minus hoperator)
    obtain ⟨pairs', rest, folds', rfl, halike, hflat, hs⟩ :=
      pairs_reread hseparator hgap hpairs hgpairs hs
    refine ⟨(mark', name') :: pairs', rest, folds', by simp [Leaf.ofPairs],
      .cons ⟨hmark', hname'⟩ halike, ?_, hs⟩
    simp only [List.flatMap_cons, pairItems, Item.flat_append, Item.flat_wordAs, Item.flat_word,
      hname'.text, hflat, Item.flat_nil]

theorem Leaf.NamesFit.sorts {separator : String} {pairs : List (Leaf × Leaf)}
    (h : Leaf.NamesFit separator pairs) : ∀ p ∈ pairs,
      p.1.Says separator ∧ p.2.token.kind ≠ .number ∧ p.2.token.kind ≠ .operator := by
  intro p hp
  have hname : p.2.token.kind = .name := (h p hp).2
  exact ⟨(h p hp).1, by simp [hname], by simp [hname]⟩

theorem PairsAlike.namesFit {separator : String} {pairs pairs' : List (Leaf × Leaf)}
    (h : PairsAlike pairs' pairs) (hfit : Leaf.NamesFit separator pairs) :
    Leaf.NamesFit separator pairs' := by
  induction h with
  | nil => exact List.forall_mem_nil _
  | cons hp _ ih =>
    obtain ⟨hfirst, hmore⟩ := List.forall_mem_cons.1 hfit
    exact List.forall_mem_cons.2 ⟨⟨hp.1.saying hfirst.1, hp.2.isName hfirst.2⟩, ih hmore⟩

/-- A list of at most one pair is alike to such a list only. -/
theorem PairsAlike.exists_option {pairs' : List (Leaf × Leaf)} {method : Option (Leaf × Leaf)}
    (h : PairsAlike pairs' method.toList) :
    ∃ method' : Option (Leaf × Leaf), pairs' = method'.toList := by
  cases method with
  | none =>
    cases h
    exact ⟨none, rfl⟩
  | some p =>
    obtain _ | ⟨-, hrest⟩ := h
    cases hrest
    exact ⟨some _, rfl⟩

theorem isEllipsis_alike {l m : Leaf} (h : l.Alike m) (hm : Parser.isEllipsis m.token = true) :
    Parser.isEllipsis l.token = true := (h.congr fun _ => rfl).trans hm

namespace Parameters

theorem MoreFit.sorts : ∀ {pairs : List (Leaf × Leaf)}, MoreFit pairs → ∀ p ∈ pairs,
    p.1.Says "," ∧ p.2.token.kind ≠ .number ∧ p.2.token.kind ≠ .operator
  | [], _ => by simp
  | [(comma, last)], h => by
    rw [List.forall_mem_singleton]
    refine ⟨h.1, ?_⟩
    rcases h.2 with hname | hdots
    · have hkind : last.token.kind = .name := hname
      simp [hkind]
    · have hkind : last.token.kind = .constant := by simp_all [Parser.isEllipsis]
      simp [hkind]
  | (comma, name) :: p :: pairs, h => by
    have hkind : name.token.kind = .name := h.2.1
    exact List.forall_mem_cons.2 ⟨⟨h.1, by simp [hkind], by simp [hkind]⟩, MoreFit.sorts h.2.2⟩

theorem MoreFit.alike {pairs pairs' : List (Leaf × Leaf)} (h : PairsAlike pairs' pairs)
    (hfit : MoreFit pairs) : MoreFit pairs' := by
  induction h with
  | nil => trivial
  | @cons p' p _ _ hp hrest ih =>
    obtain ⟨comma', name'⟩ := p'
    obtain ⟨comma, name⟩ := p
    cases hrest with
    | nil => exact ⟨hp.1.saying hfit.1, hfit.2.imp hp.2.isName (isEllipsis_alike hp.2)⟩
    | @cons q' q _ _ hq hrest => exact ⟨hp.1.saying hfit.1, hp.2.isName hfit.2.1, ih hfit.2.2⟩

theorem reread {p : Parameters} {folds : Bool} (h : p.Fits) (hg : AllGenuine version p.leaves)
    (hs : Spelled version folds (worded tidy p.leaves p.layout ++ more) leaves) :
    ∃ (p' : Parameters) (rest : List Leaf) (folds' : Bool), leaves = p'.leaves ++ rest ∧ p'.Fits ∧
      flat p'.layout = flat p.layout ∧ Spelled version folds' more rest := by
  cases p with
  | none opening closing =>
    simp only [Parameters.leaves, AllGenuine.cons_iff] at hg
    simp only [Parameters.leaves, Parameters.layout, worded_fixed h.1 (by decide),
      worded_fixed h.2 (by decide), worded_nil, List.cons_append, List.nil_append] at hs
    obtain ⟨opening', rest, rfl, hopening, hs⟩ := hs.fixed h.1 hg.1 (by decide)
    obtain ⟨closing', rest, rfl, hclosing, hs⟩ := hs.fixed h.2 hg.2.1 (by decide)
    exact ⟨.none opening' closing', rest, _, rfl, ⟨hopening.saying h.1, hclosing.saying h.2⟩, rfl, hs⟩
  | some opening first pairs closing =>
    obtain ⟨hopening, hfirst, hclosing, hcases⟩ := h
    simp only [Parameters.leaves, List.cons_append, AllGenuine.cons_iff, AllGenuine.append_iff] at hg
    obtain ⟨hgopening, hgfirst, hgpairs, hgclosing, -⟩ := hg
    have hsort : first.token.kind ≠ .number ∧ first.token.kind ≠ .operator := by
      rcases hcases with ⟨hdots, -⟩ | ⟨hname, -⟩
      · have hkind : first.token.kind = .constant := by simp_all [Parser.isEllipsis]
        simp [hkind]
      · have hkind : first.token.kind = .name := hname
        simp [hkind]
    have hpairs : ∀ p ∈ pairs, p.1.Says "," ∧ p.2.token.kind ≠ .number ∧
        p.2.token.kind ≠ .operator := by
      rcases hcases with ⟨-, rfl⟩ | ⟨-, hmore⟩
      · simp
      · exact hmore.sorts
    have hplain := hgfirst.unsign_eq hsort.1
    simp only [Parameters.leaves, Parameters.layout, List.cons_append,
      worded_fixed hopening (by decide), worded_leaf, hplain, worded_append,
      worded_fixed hclosing (by decide), worded_nil, List.nil_append, List.append_assoc] at hs
    obtain ⟨opening', rest, rfl, hopening', hs⟩ := hs.fixed hopening hgopening (by decide)
    obtain ⟨first', rest, rfl, hfirst', hs⟩ := hs.take hgfirst hplain fun heq =>
      absurd heq (hgfirst.ne_minus hsort.2)
    obtain ⟨pairs', rest, folds', rfl, halike, hflat, hs⟩ :=
      pairs_reread (by decide) (.inr rfl) hpairs hgpairs hs
    obtain ⟨closing', rest, rfl, hclosing', hs⟩ := hs.fixed hclosing hgclosing (by decide)
    refine ⟨.some opening' first' pairs' closing', rest, _, by simp [Parameters.leaves],
      ⟨hopening'.saying hopening, fun hsaid => hfirst (hfirst'.text.symm.trans hsaid),
        hclosing'.saying hclosing, ?_⟩, ?_, hs⟩
    · rcases hcases with ⟨hdots, rfl⟩ | ⟨hname, hmore⟩
      · cases halike
        exact .inl ⟨isEllipsis_alike hfirst' hdots, rfl⟩
      · exact .inr ⟨hfirst'.isName hname, hmore.alike halike⟩
    · rw [commaNames_eq] at *
      simp only [Parameters.layout, List.cons_append, Item.flat_append, Item.flat_wordAs, Item.flat_word,
        hfirst'.text, commaNames_eq, hflat, Item.flat_nil]

end Parameters

namespace LocalName

theorem reread {n : LocalName} {folds : Bool} (h : n.Fits next) (hg : AllGenuine version n.leaves)
    (hnext : Same next (headOf version more))
    (hs : Spelled version folds (worded tidy n.leaves n.layout ++ more) leaves) :
    ∃ (n' : LocalName) (rest : List Leaf) (folds' : Bool), leaves = n'.leaves ++ rest ∧
      n'.Fits (front rest none) ∧ n'.name.Alike n.name ∧ flat n'.layout = flat n.layout ∧
      Spelled version folds' more rest := by
  obtain ⟨name, _ | mark⟩ := n
  · have hgname := hg name (by simp [LocalName.leaves])
    simp only [LocalName.leaves, LocalName.layout, markLayout, Option.map_none,
      Option.getD_none, worded_leaf, worded_nil, List.append_nil] at hs
    obtain ⟨name', rest, rfl, hname', hs⟩ := hs.name h.1 hgname
    have hfront := hs.front_same fun _ => rfl
    refine ⟨⟨name', none⟩, rest, _, rfl, ⟨hname'.isName h.1, ?_⟩, hname', ?_, hs⟩
    · exact hfront.noneOf (hnext.noneOf h.2)
    · simp [LocalName.layout, markLayout, hname'.text]
  · obtain ⟨hname, hopening, hword, hclosing⟩ := h
    simp only [LocalName.leaves, Option.map_some, Option.getD_some, Mark.leaves,
      AllGenuine.cons_iff] at hg
    obtain ⟨hgname, hgopening, hgword, hgclosing, -⟩ := hg
    simp only [LocalName.leaves, LocalName.layout, markLayout, Option.map_some,
      Option.getD_some, Mark.leaves, worded_leaf, worded_space,
      worded_fixed hopening (by decide), worded_fixed hclosing (by decide), worded_nil,
      List.append_assoc, List.cons_append, List.nil_append] at hs
    obtain ⟨name', rest, rfl, hname', hs⟩ := hs.name hname hgname
    obtain ⟨opening', rest, rfl, hopening', hs⟩ := hs.fixed hopening hgopening (by decide)
    obtain ⟨word', rest, rfl, hword', hs⟩ := hs.name hword hgword
    obtain ⟨closing', rest, rfl, hclosing', hs⟩ := hs.fixed hclosing hgclosing (by decide)
    refine ⟨⟨name', some ⟨opening', word', closing'⟩⟩, rest, _, rfl, ⟨hname'.isName hname,
      hopening'.saying hopening, hword'.isName hword, hclosing'.saying hclosing⟩, hname', ?_, hs⟩
    simp [LocalName.layout, markLayout, hname'.text, hword'.text]

/-- What comes after a local name. -/
theorem more_front (tidy : Bool) {pairs : List (Leaf × LocalName)} (h : MoreFit next pairs)
    (hg : AllGenuine version (Leaf.ofPairs LocalName.leaves pairs))
    (hnext : Same next (headOf version more))
    (hminus : more.head? ≠ some "-") :
    Same (front (Leaf.ofPairs LocalName.leaves pairs) next)
        (headOf version (worded tidy (Leaf.ofPairs LocalName.leaves pairs) (moreLayout pairs) ++ more)) ∧
      (worded tidy (Leaf.ofPairs LocalName.leaves pairs) (moreLayout pairs) ++ more).head? ≠ some "-" := by
  cases pairs with
  | nil => simpa [Leaf.ofPairs, moreLayout] using ⟨hnext, hminus⟩
  | cons p rest =>
    obtain ⟨comma, n⟩ := p
    simp only [Leaf.ofPairs, moreLayout, List.flatMap_cons, List.cons_append, worded_fixed h.1 (by decide),
      Leaf.front_cons, List.head?_cons]
    exact ⟨h.1.same (AllGenuine.cons_iff.1 hg).1 (by decide), by decide⟩

theorem more_reread : ∀ {pairs : List (Leaf × LocalName)} {folds : Bool} {leaves : List Leaf},
    MoreFit next pairs → AllGenuine version (Leaf.ofPairs LocalName.leaves pairs) →
    Same next (headOf version more) → more.head? ≠ some "-" →
    Spelled version folds
      (worded tidy (Leaf.ofPairs LocalName.leaves pairs) (moreLayout pairs) ++ more) leaves →
    ∃ (pairs' : List (Leaf × LocalName)) (rest : List Leaf) (folds' : Bool),
      leaves = Leaf.ofPairs LocalName.leaves pairs' ++ rest ∧ MoreFit (front rest none) pairs' ∧
      flat (moreLayout pairs') = flat (moreLayout pairs) ∧ Spelled version folds' more rest
  | [], folds, leaves, h, _, hnext, hminus, hs => by
    simp only [Leaf.ofPairs, moreLayout, List.flatMap_nil, worded_nil, List.nil_append] at hs
    have hfront := hs.front_same fun hhead => absurd hhead hminus
    exact ⟨[], leaves, folds, rfl, hfront.noneOf (hnext.noneOf h), rfl, hs⟩
  | (comma, n) :: pairs, folds, leaves, h, hg, hnext, hminus, hs => by
    obtain ⟨hcomma, hn, hpairs⟩ := h
    simp only [Leaf.ofPairs, List.cons_append, AllGenuine.cons_iff, AllGenuine.append_iff] at hg
    obtain ⟨hgcomma, hgn, hgpairs⟩ := hg
    obtain ⟨hsame, -⟩ := more_front tidy hpairs hgpairs hnext hminus
    have hmore : moreLayout ((comma, n) :: pairs) =
        comma.wordAs "," :: .space :: (n.layout ++ moreLayout pairs) := rfl
    simp only [Leaf.ofPairs, hmore, List.cons_append, worded_fixed hcomma (by decide), worded_space,
      worded_append, List.append_assoc] at hs
    obtain ⟨comma', rest, rfl, hcomma', hs⟩ := hs.fixed hcomma hgcomma (by decide)
    obtain ⟨n', rest, folds', rfl, hn', -, hflatn, hs⟩ := reread hn hgn hsame hs
    obtain ⟨pairs', rest, folds', rfl, hpairs', hflat, hs⟩ :=
      more_reread hpairs hgpairs hnext hminus hs
    rw [Leaf.front_append] at hn'
    refine ⟨(comma', n') :: pairs', rest, folds', by simp [Leaf.ofPairs],
      ⟨hcomma'.saying hcomma, hn', hpairs'⟩, ?_, hs⟩
    have hmore' : moreLayout ((comma', n') :: pairs') =
        comma'.wordAs "," :: .space :: (n'.layout ++ moreLayout pairs') := rfl
    simp only [hmore, hmore', Item.flat_wordAs, Item.flat_space, Item.flat_append, hflatn, hflat]

end LocalName

/-! ## 5. Signs -/

/-- The second lexeme of a number with its minus begins with a digit or a point. -/
theorem number_of_unsign {text number : String} (h : unsign text = ["-", number]) :
    unsign number = [number] ∧ number ≠ "-" ∧ number.toList.head? ≠ some '-' := by
  unfold unsign at h
  split at h
  · next d rest htext =>
    split at h
    · next hbegins =>
      obtain rfl : String.ofList (d :: rest) = number := by simpa using h
      have hne : d ≠ '-' := by
        rintro rfl
        exact absurd hbegins (by decide)
      have hhead : (String.ofList (d :: rest)).toList.head? ≠ some '-' := by simpa using hne
      refine ⟨unsign_of_head ?_, ?_, hhead⟩
      · rw [String.toList_ofList]
        rintro x ⟨⟩
        exact hne
      · intro heq
        rw [heq] at hhead
        exact hhead rfl
    · cases h
  · cases h

/-- The leaves go on with an operand, and with operators that belong to it where
they bind tighter than a unary operator; or they go on with a minus and a number
that are one operand so far. -/
def Operand.Rereads (version : Version) (indent : Int) (o : Operand) (more : List String)
    (leaves : List Leaf) : Prop :=
  (∃ (o' : Operand) (ops : List (Leaf × Expr)) (rest : List Leaf),
      leaves = o'.leaves ++ (operationsLeaves ops ++ rest) ∧
      o'.Fits (front (operationsLeaves ops ++ rest) none) ∧
      OperationsJoin Powers.unary (front rest none) ops ∧
      flat (o'.layout false indent ++ operationsLayout false indent ops) =
        flat (o.layout false indent) ∧
      Spelled version false more rest) ∨
  ∃ (minus number : Leaf) (rest : List Leaf), leaves = minus :: number :: rest ∧
    minus.IsSymbol "-" ∧ number.token.kind = .number ∧ number.token.text.toList.head? ≠ some '-' ∧
    flat (o.layout false indent) = flat [minus.word, number.word] ∧
    Spelled version false more rest

theorem Operand.Rereads.of {o o' : Operand} (hl : leaves = o'.leaves ++ rest)
    (hfits : o'.Fits (front rest none))
    (hflat : flat (o'.layout false indent) = flat (o.layout false indent))
    (hs : Spelled version false more rest) : o.Rereads version indent more leaves :=
  .inl ⟨o', [], rest, by simpa [operationsLeaves] using hl, by simpa [operationsLeaves] using hfits,
    trivial, by simpa [operationsLayout] using hflat, hs⟩

theorem isLiteral_number {t : Token} (h : t.kind = .number) : Parser.isLiteral t = true := by
  simp [Parser.isLiteral, h]

theorem operationsLayout_append (indent : Int) (xs ys : List (Leaf × Expr)) :
    operationsLayout false indent (xs ++ ys) =
      operationsLayout false indent xs ++ operationsLayout false indent ys := by
  induction xs with
  | nil => rfl
  | cons p rest ih => simp [operationsLayout, ih]

/-- An operand and the operators after it make an expression. -/
theorem Operand.Rereads.expr {o : Operand} {ops : List (Leaf × Expr)} {after : List String}
    (hlimit : limit ≤ 13) (ho : o.Rereads version indent after leaves)
    (hops : ∀ {leaves : List Leaf}, Spelled version false after leaves →
      ∃ (ops' : List (Leaf × Expr)) (rest : List Leaf), leaves = operationsLeaves ops' ++ rest ∧
        OperationsFit limit (front rest none) ops' ∧
        flat (operationsLayout false indent ops') = flat (operationsLayout false indent ops) ∧
        Spelled version false more rest) :
    ∃ (e' : Expr) (rest : List Leaf), leaves = e'.leaves ++ rest ∧ e'.Fits limit (front rest none) ∧
      flat (e'.layout false indent) = flat ((Expr.mk o ops).layout false indent) ∧
      Spelled version false more rest := by
  rcases ho with ⟨o', taken, rest, rfl, hfits, htaken, hflat, hs⟩ |
    ⟨minus, number, rest, rfl, hminus, hnumber, hhead, hflat, hs⟩
  · obtain ⟨ops', rest, rfl, hops', hflat', hs⟩ := hops hs
    refine ⟨.mk o' (taken ++ ops'), rest, by simp [Expr.leaves, operationsLeaves_append], ?_, ?_, hs⟩
    · rw [Leaf.front_append] at htaken
      simp only [Leaf.front_append] at hfits
      refine ⟨by simpa only [operationsLeaves_append, Leaf.front_append] using hfits, ?_⟩
      rw [operationsFit_iff] at hops' ⊢
      exact ⟨operationsJoin_append.2 ⟨htaken.mono hlimit, hops'.1⟩, hops'.2⟩
    · simp only [Expr.layout, showGroup, Bool.false_eq_true, if_false, operationsLayout_append,
        Item.flat_append, hflat'] at hflat ⊢
      rw [← List.append_assoc, hflat]
  · obtain ⟨ops', rest, rfl, hops', hflat', hmore⟩ := hops hs
    obtain ⟨xs, ys, rfl, hxs, hys⟩ := hops'.cut hlimit
    have hoperator := Token.isOperator_iff.1 hminus
    have hunary : Parser.isUnary minus.token = true := by
      simp [Parser.isUnary, hoperator, Powers.unaryOperators]
    refine ⟨.mk (.unary minus (.mk (.literal number) xs)) ys, rest,
      by simp [Expr.leaves, Operand.leaves, operationsLeaves_append],
      ⟨⟨hunary, isLiteral_number hnumber, hxs⟩, hys⟩, ?_, hmore⟩
    have hspace : unarySpace minus.token.text (.mk (.literal number) xs) = false := by
      have hstarts : number.token.startsWith '-' = false := by
        simpa [Token.startsWith] using hhead
      simp [unarySpace, hoperator.2, Expr.head, Operand.head, hstarts]
    rw [operationsLayout_append] at hflat'
    simp only [Item.flat_append] at hflat'
    simp only [Expr.layout, Operand.layout, showGroup, Bool.false_eq_true, if_false, hspace, spaceIf,
      Item.flat_append, hflat, ← hflat', List.nil_append, List.cons_append, Item.flat_word,
      Item.flat_nil, List.append_assoc, List.append_nil]

/-- An operand whose first lexeme is a number is that number. -/
theorem Operand.eq_literal {o : Operand} {number : String} {texts : List String} (h : o.Fits next)
    (hg : AllGenuine version o.leaves)
    (hs : worded tidy o.leaves (o.layout false indent) ++ more = number :: texts)
    (hnumber : IsNumeral version number) :
    ∃ value : Leaf, o = .literal value ∧ value.token.text = number ∧ texts = more := by
  obtain ⟨ls, hl⟩ := o.leaves_eq
  have hghead : o.head.token.Genuine version := hg _ (by simp [hl])
  have hkind : o.head.token.kind = .number := by
    by_contra hkind
    have hplain := hghead.unsign_eq hkind
    obtain ⟨ws, hws⟩ := worded_begins tidy ls (Operand.begins indent h) hplain
    rw [hl, hws] at hs
    obtain ⟨rfl, -⟩ : o.head.token.text = number ∧ _ := List.cons.inj hs
    rcases hghead.spells with ⟨-, -, hbare⟩ | ⟨number, -, hsigned, -⟩
    · exact hkind ((congrArg Token.kind hbare).trans hnumber)
    · exact absurd (congrArg List.length (hplain.symm.trans hsigned)) (by simp)
  obtain ⟨value, rfl⟩ := h.eq_literal hkind
  refine ⟨value, rfl, ?_⟩
  simp only [Operand.leaves, Operand.layout, worded_leaf, worded_nil, List.append_nil] at hs
  rcases ((AllGenuine.cons_iff.1 hg).1).spells with ⟨-, hplain, -⟩ | ⟨number', -, hsigned, -⟩
  · rw [hplain] at hs
    obtain ⟨rfl, rfl⟩ := List.cons.inj hs
    exact ⟨rfl, rfl⟩
  · rw [hsigned] at hs
    obtain ⟨rfl, -⟩ := List.cons.inj hs
    rw [IsNumeral, spell_operator (by decide) (by decide)] at hnumber
    cases hnumber

/-- A literal without a sign is read as such again. -/
theorem Operand.Rereads.plain {value : Leaf} {folds : Bool}
    (h : Parser.isLiteral value.token = true) (hg : value.token.Genuine version)
    (hplain : unsign value.token.text = [value.token.text])
    (hs : Spelled version folds (value.token.text :: more) leaves) :
    (Operand.literal value).Rereads version indent more leaves := by
  have hkind : value.token.kind ≠ .operator := by
    intro hoperator
    simp [Parser.isLiteral, hoperator] at h
  have hfalse : foldsAfter (some value.token) = false := by
    simp only [Parser.isLiteral, Bool.or_eq_true, beq_iff_eq] at h
    rcases h with (h | h) | h <;> simp [foldsAfter, h]
  obtain ⟨l, rest, rfl, hl, hs⟩ := hs.take hg hplain fun heq => absurd heq (hg.ne_minus hkind)
  rw [hfalse] at hs
  have hleaves : l :: rest = (Operand.literal l).leaves ++ rest := rfl
  refine .of hleaves ((hl.congr fun _ => rfl).trans h) ?_ hs
  simp only [Operand.layout, Item.flat_word, hl.text]

/-- A number with its sign is read as one literal again, or as a minus and a number. -/
theorem Operand.Rereads.signed {value : Leaf} {folds : Bool} {number : String}
    (h : Parser.isLiteral value.token = true) (hnumber : IsNumeral version number)
    (hsigned : unsign value.token.text = ["-", number])
    (hvalue : value.token.bare = (spell version "-").signed (spell version number))
    (hs : Spelled version folds ("-" :: number :: more) leaves) :
    (Operand.literal value).Rereads version indent more leaves := by
  obtain ⟨hnplain, hnminus, hnhead⟩ := number_of_unsign hsigned
  rcases hs.cases_cons with ⟨minus, rest, rfl, hminus, hs'⟩ |
    ⟨-, l, number', texts, rest, rfl, hmore, -, hunsign, hbare, hs'⟩
  · obtain ⟨n, rest, rfl, hn, hs'⟩ := hs'.step fun heq => absurd heq hnminus
    have hminusText : minus.token.text = "-" := (congrArg Token.text hminus :)
    have hminusKind : minus.token.kind = .operator := by
      rw [spell_operator (by decide) (by decide)] at hminus
      exact (congrArg Token.kind hminus :)
    have hnText : n.token.text = number := (congrArg Token.text hn :)
    have hnKind : n.token.kind = .number := (congrArg Token.kind hn).trans hnumber
    have hstate : foldsAfter (some n.token) = false := by simp [foldsAfter, hnKind]
    rw [hstate] at hs'
    refine .inr ⟨minus, n, rest, rfl, Token.isOperator_iff.2 ⟨hminusKind, hminusText⟩, hnKind,
      by rwa [hnText], ?_, hs'⟩
    simp only [Operand.layout, Item.flat_word, Item.flat_nil, hsigned, hminusText, hnText, hnplain,
      unsign_minus_alone, List.map_cons, List.map_nil, List.cons_append, List.nil_append]
  · obtain ⟨rfl, rfl⟩ := List.cons.inj hmore
    have hlike : l.token.bare = value.token.bare := hbare.trans hvalue.symm
    have hleaves : l :: rest = (Operand.literal l).leaves ++ rest := rfl
    refine .of hleaves ?_ ?_ hs'
    · exact (Leaf.Alike.congr (f := Parser.isLiteral) (fun _ => rfl) hlike).trans h
    · simp only [Operand.layout, Item.flat_word, Leaf.Alike.text hlike]

theorem Operand.Rereads.literal {value : Leaf} {folds : Bool}
    (h : Parser.isLiteral value.token = true) (hg : value.token.Genuine version)
    (hs : Spelled version folds (unsign value.token.text ++ more) leaves) :
    (Operand.literal value).Rereads version indent more leaves := by
  rcases hg.spells with ⟨-, hplain, -⟩ | ⟨number, hnumber, hsigned, hvalue⟩
  · rw [hplain] at hs
    exact .plain h hg hplain hs
  · rw [hsigned] at hs
    exact .signed h hnumber hsigned hvalue hs

/-- Where a minus is joined to the number that its argument begins with, the two are
one literal, and the operators of the argument come after it. -/
theorem Operand.Rereads.joined {minus l : Leaf} {operand : Operand} {ops : List (Leaf × Expr)}
    {number : String} {after texts : List String} (hoperand : operand.Fits next)
    (hg : AllGenuine version operand.leaves)
    (hafter : worded tidy operand.leaves (operand.layout false indent) ++ after = number :: texts)
    (hminus : minus.token.text = "-") (hnumber : IsNumeral version number)
    (hunsign : unsign l.token.text = ["-", number])
    (hbare : l.token.bare = (spell version "-").signed (spell version number))
    (hs : Spelled version false texts rest)
    (hops : ∀ {leaves : List Leaf}, Spelled version false after leaves →
      ∃ (ops' : List (Leaf × Expr)) (rest : List Leaf), leaves = operationsLeaves ops' ++ rest ∧
        OperationsFit Powers.unary (front rest none) ops' ∧
        flat (operationsLayout false indent ops') = flat (operationsLayout false indent ops) ∧
        Spelled version false more rest) :
    (Operand.unary minus (.mk operand ops)).Rereads version indent more (l :: rest) := by
  obtain ⟨value, rfl, hvalue, rfl⟩ := Operand.eq_literal hoperand hg hafter hnumber
  obtain ⟨ops', rest, rfl, hops', hflat, hrest⟩ := hops hs
  have hl : l.token.kind = .number := (congrArg Token.kind hbare).trans hnumber
  have hspace : unarySpace "-" (.mk (.literal value) ops) = false := by
    have hstarts : value.token.startsWith '-' = false := by
      simpa [Token.startsWith, hvalue] using (number_of_unsign hunsign).2.2
    simp [unarySpace, Expr.head, Operand.head, hstarts]
  refine .inl ⟨.literal l, ops', rest, by simp [Operand.leaves], isLiteral_number hl,
    (operationsFit_iff.1 hops').1, ?_, hrest⟩
  simp only [Operand.layout, Expr.layout, showGroup, Bool.false_eq_true, if_false, hspace, spaceIf,
    Item.flat_word, hunsign, hflat, hminus, hvalue, List.cons_append, List.nil_append,
    (number_of_unsign hunsign).1, unsign_minus_alone, List.map_cons, List.map_nil]

/-! ## 6. Fields and lists -/

/-- The texts begin with what may come after a field. -/
def EndsField (more : List String) : Prop :=
  ∃ text rest, more = text :: rest ∧ text ∈ [",", ";", "\x7d"]

theorem EndsField.passes (h : EndsField more) : Passes next (headOf version more) := by
  obtain ⟨text, rest, rfl, hmem⟩ := h
  have hall : ∀ t ∈ [",", ";", "\x7d"], t ∈ enders := by decide
  exact passes_ender (hall text hmem)

theorem EndsField.noneOf (h : EndsField more) : NoneOf ["="] (headOf version more) := by
  obtain ⟨text, rest, rfl, hmem⟩ := h
  rintro t ⟨⟩ hequals
  have htext : text = "=" := List.mem_singleton.1 hequals
  rw [htext] at hmem
  exact absurd hmem (by decide)

/-- A separator of fields is worded as itself or as a comma. -/
theorem worded_separator (tidy : Bool) {l : Leaf} (h : l.Says "," ∨ l.Says ";") :
    ∃ s ∈ [",", ";"], ∀ ls is,
      worded tidy (l :: ls) (l.wordAs "," :: is) = s :: worded tidy ls is := by
  have hcomma := (unsign_fixed (show "," ∈ fixedTexts by decide)).1
  have hsemicolon := (unsign_fixed (show ";" ∈ fixedTexts by decide)).1
  cases tidy with
  | true => exact ⟨",", by simp, fun ls is => by simp [worded, Leaf.wordAs, Item.texts, hcomma]⟩
  | false =>
    rcases h with h | h
    · have htext : l.token.text = "," := h
      exact ⟨",", by simp, fun ls is => by simp [worded, htext, hcomma]⟩
    · have htext : l.token.text = ";" := h
      exact ⟨";", by simp, fun ls is => by simp [worded, htext, hsemicolon]⟩

/-- A separator before the closing brace is worded as itself or not at all. -/
theorem worded_trailing (tidy : Bool) {trailing : Option Leaf}
    (h : ∀ t ∈ trailing, t.Says "," ∨ t.Says ";") :
    ∃ last : Option String, (∀ s ∈ last, s ∈ [",", ";"]) ∧
      worded tidy trailing.toList (trailing.toList.map Leaf.omitted) = last.toList := by
  cases trailing with
  | none => exact ⟨none, nofun, worded_nil⟩
  | some t =>
    cases tidy with
    | true => exact ⟨none, nofun, rfl⟩
    | false =>
      have hcomma := (unsign_fixed (show "," ∈ fixedTexts by decide)).1
      have hsemicolon := (unsign_fixed (show ";" ∈ fixedTexts by decide)).1
      rcases h t rfl with h | h
      · have htext : t.token.text = "," := h
        exact ⟨some ",", by simp, by simp [worded, htext, hcomma]⟩
      · have htext : t.token.text = ";" := h
        exact ⟨some ";", by simp, by simp [worded, htext, hsemicolon]⟩

theorem Spelled.separator {folds : Bool} (h : Spelled version folds (text :: more) leaves)
    (hmem : text ∈ [",", ";"]) :
    ∃ l rest, leaves = l :: rest ∧ (l.Says "," ∨ l.Says ";") ∧
      ∃ folds', Spelled version folds' more rest := by
  have hne : text ≠ "-" := by
    rintro rfl
    exact absurd hmem (by decide)
  obtain ⟨l, rest, rfl, hbare, hrest⟩ := h.step fun heq => absurd heq hne
  have htext : l.token.text = text := (congrArg Token.text hbare :)
  refine ⟨l, rest, rfl, ?_, _, hrest⟩
  rw [Leaf.Says, Leaf.Says, htext]
  simpa using hmem

theorem Spelled.separator? {last : Option String}
    (h : Spelled version false (last.toList ++ "\x7d" :: more) leaves)
    (hlast : ∀ s ∈ last, s ∈ [",", ";"]) :
    ∃ (trailing : Option Leaf) (rest : List Leaf), leaves = trailing.toList ++ rest ∧
      (∀ t ∈ trailing, t.Says "," ∨ t.Says ";") ∧
      ∃ folds, Spelled version folds ("\x7d" :: more) rest := by
  cases last with
  | none => exact ⟨none, leaves, rfl, nofun, _, h⟩
  | some s =>
    obtain ⟨l, rest, rfl, hl, hrest⟩ := Spelled.separator h (hlast s rfl)
    refine ⟨some l, rest, rfl, ?_, hrest⟩
    rintro t ⟨⟩
    exact hl

/-- After a field comes a separator, or what comes after them all. -/
theorem fields_end {fs : List (Leaf × Field)} (h : FieldsFit next fs) (hends : EndsField more) :
    EndsField (worded tidy (fieldsLeaves fs) (commaFieldsLayout false indent fs) ++ more) := by
  cases fs with
  | nil => simpa [fieldsLeaves, commaFieldsLayout] using hends
  | cons p rest =>
    obtain ⟨separator, f⟩ := p
    obtain ⟨s, hs, hworded⟩ := worded_separator tidy h.1
    exact ⟨s, _, by simp only [fieldsLeaves, commaFieldsLayout, List.cons_append, hworded]; rfl,
      List.mem_append_left ["\x7d"] hs⟩

/-- No field begins with a closing brace. -/
theorem Field.front_noneOf {f : Field} (h : f.Fits next) (hg : AllGenuine version f.leaves) :
    NoneOf ["\x7d"] (front f.leaves none) := by
  cases f with
  | keyed opening key closing equals value =>
    rintro t ⟨⟩ hmem
    exact absurd ((Token.isOperator_iff.1 h.1).2.symm.trans (List.mem_singleton.1 hmem)) (by decide)
  | named name equals value =>
    rintro t ⟨⟩ hmem
    have hneutral := (AllGenuine.cons_iff.1 hg).1.neutral_name h.1
    rw [List.mem_singleton.1 hmem] at hneutral
    exact absurd hneutral (by decide)
  | positional value =>
    exact fun t ht hmem => Expr.front_noneOf h.1 hg t ht (List.mem_cons_of_mem _ hmem)

theorem Exprs.front_noneOf {es : Exprs} (h : es.Fits next) (hg : AllGenuine version es.leaves) :
    NoneOf [")"] (front es.leaves none) := by
  obtain ⟨first, others⟩ := es
  have hfirst := Expr.front_noneOf h.1 (AllGenuine.append_iff.1 hg).1
  obtain ⟨ls, hl⟩ := first.leaves_eq
  simp only [Exprs.leaves, hl, List.cons_append, Leaf.front_cons] at hfirst ⊢
  exact fun t ht hmem => hfirst t ht (List.mem_append_left ["\x7d"] hmem)

/-- After an expression of a list comes a comma, or what comes after them all. -/
theorem commaExprs_passes {xs : List (Leaf × Expr)} (h : CommaExprsFit next xs)
    (hnext : Same next (headOf version more)) :
    Passes (front (commaExprsLeaves xs) next) (headOf version
      (worded tidy (commaExprsLeaves xs) (commaExprsLayout false indent xs) ++ more)) := by
  cases xs with
  | nil => simpa [commaExprsLeaves, commaExprsLayout] using hnext.passes
  | cons p rest =>
    obtain ⟨comma, e⟩ := p
    simp only [commaExprsLeaves, commaExprsLayout, List.cons_append, worded_fixed h.1 (by decide)]
    exact passes_ender (by decide)

/-- No expression begins with what ends a result. -/
theorem Exprs.front_endsResult {es : Exprs} (h : es.Fits next) :
    (front es.leaves none).all Parser.endsResult = false := by
  obtain ⟨first, others⟩ := es
  obtain ⟨ls, hl⟩ := first.leaves_eq
  have hstarts := Expr.Fits.starts h.1
  simp only [Exprs.leaves, hl, List.cons_append, Leaf.front_cons, Option.all_some]
  simp only [Token.startsExpr, Parser.isUnary, Parser.isLiteral, Powers.unaryOperators,
    Bool.or_eq_true, Bool.and_eq_true, Token.isOperator_iff, Token.isKeyword_iff, beq_iff_eq,
    List.contains_iff_mem, List.mem_cons, List.not_mem_nil, or_false] at hstarts
  rw [Parser.endsResult, Bool.and_eq_false_iff]
  rcases hstarts with ((((⟨-, h | h | h | h⟩ | (h | h) | h) | ⟨-, h⟩) | ⟨-, h⟩) | ⟨-, h⟩) | h <;>
    first
    | exact .inl (by rw [h]; rfl)
    | exact .inr (by rw [h]; decide)

/-- After a target comes a comma, or what comes after them all. -/
theorem commaAccesses_passes {xs : List (Leaf × Access)} (h : CommaAccessesFit next xs)
    (htext : text ∈ enders) :
    Passes (front (commaAccessesLeaves xs) next) (headOf version
      (worded tidy (commaAccessesLeaves xs) (commaAccessesLayout false indent xs) ++ text :: more)) := by
  cases xs with
  | nil => simpa [commaAccessesLeaves, commaAccessesLayout] using passes_ender htext
  | cons p rest =>
    obtain ⟨comma, a⟩ := p
    simp only [commaAccessesLeaves, commaAccessesLayout, List.cons_append, worded_fixed h.1 (by decide)]
    exact passes_ender (by decide)

/-- After the bound of a loop comes a comma, or what comes after the step. -/
theorem step_passes {step : Option (Leaf × Expr)} (h : StepFits next step) (htext : text ∈ enders) :
    Passes (front (stepLeaves step) next) (headOf version
      (worded tidy (stepLeaves step) (stepLayout false indent step) ++ text :: more)) := by
  cases step with
  | none => simpa [stepLeaves, stepLayout] using passes_ender htext
  | some p =>
    obtain ⟨comma, e⟩ := p
    simp only [stepLeaves, stepLayout, List.cons_append, worded_fixed h.1 (by decide)]
    exact passes_ender (by decide)

end LuaLayout
