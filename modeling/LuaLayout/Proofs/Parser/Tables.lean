/-
LuaLayout.Proofs.Parser.Tables — tables and functions are read exactly.

Both open with a leaf of their own, so they are read exactly from lists that
are one longer than those the inner rules are exact for. The last separator of
a table and the last parameter of a function are the two places where one token
of lookahead does not decide: a separator before the closing brace separates
nothing, and a comma before an ellipsis is not followed by a name.
-/
import LuaLayout.Proofs.Parser.Expressions

namespace LuaLayout.Parser

variable {r : Rules} {n : Nat} {s t u : List Leaf}

/-! ## 1. Tables -/

theorem seesSeparator_bind {β : Type} (q : Bool → Parser β) :
    (seesSeparator >>= q) s = q (hasTextAt 0 "," s || hasTextAt 0 ";" s) s := rfl

/-- A separator stands here, and not before a closing brace. -/
def separatesField (s : List Leaf) : Bool :=
  (hasTextAt 0 "," s || hasTextAt 0 ";" s) && !hasTextAt 1 "\x7d" s

/-- Another field is asked for exactly where a separator calls for one. -/
theorem nextField_eq (r : Rules) (s : List Leaf) :
    nextField r s =
      if separatesField s = true then (some <$> nextThen (field r)) s else .ok (none, s) := by
  rw [nextField, seesSeparator_bind, seesSecond_bind, ite_apply]
  rfl

/-- Another field is read exactly from its separator and the leaves of a field that fits.
That the separator is not the last one shows in the first of these leaves, which is no
closing brace. -/
theorem nextField_eq_some_iff (hr : r.Exact n) (hs : s.length ≤ n + 1) {l : Leaf} {f : Field} :
    nextField r s = .ok (some (l, f), t) ↔
      s = l :: (f.leaves ++ t) ∧ (l.Says "," ∨ l.Says ";") ∧
        NoneOf ["\x7d"] (Leaf.front f.leaves none) ∧ f.Fits (tokenAt 0 t) := by
  have hsep : ∀ u, separatesField (l :: u) = true ↔
      (l.Says "," ∨ l.Says ";") ∧ hasTextAt 0 "\x7d" u = false := by
    intro u
    simp [separatesField, hasTextAt_one_cons, Leaf.Says]
  have hfirst : hasTextAt 0 "\x7d" (f.leaves ++ t) = false ↔
      NoneOf ["\x7d"] (Leaf.front f.leaves none) := by
    obtain ⟨m, rest, h⟩ := f.leaves_eq
    simp [h, noneOf_singleton]
  rw [nextField_eq]
  constructor
  · intro h
    split at h
    · next hb =>
      obtain ⟨⟨l', f'⟩, hpair, heq⟩ := map_eq_ok_iff.1 h
      cases heq
      obtain ⟨u, rfl, hu⟩ := nextThen_eq_ok_iff.1 hpair
      simp only [List.length_cons, Nat.add_le_add_iff_right] at hs
      obtain ⟨rfl, hfit⟩ := (field_eq_ok_iff hr hs).1 hu
      obtain ⟨hl, hclose⟩ := (hsep _).1 hb
      exact ⟨rfl, hl, hfirst.1 hclose, hfit⟩
    · cases h
  · rintro ⟨rfl, hl, hclose, hfit⟩
    simp only [List.length_cons, Nat.add_le_add_iff_right] at hs
    rw [if_pos ((hsep _).2 ⟨hl, hfirst.2 hclose⟩)]
    exact map_eq_ok_iff.2 ⟨(l, f), nextThen_eq_ok_iff.2
      ⟨_, rfl, (field_eq_ok_iff hr hs).2 ⟨rfl, hfit⟩⟩, rfl⟩

/-- No further field is read where nothing separates one, and nothing is taken then. -/
theorem nextField_eq_none_iff :
    nextField r s = .ok (none, t) ↔ s = t ∧ separatesField s = false := by
  rw [nextField_eq]
  cases h : separatesField s with
  | false => simp
  | true => simp [map_eq_ok_iff]

/-- Further fields are read exactly, up to a place where nothing separates a field: the
closing brace, or the separator in front of it. -/
theorem fields_eq_ok_iff (hr : r.Exact n) (hs : s.length ≤ n + 1) {more : List (Leaf × Field)} :
    many (nextField r) s = .ok (more, t) ↔
      s = fieldsLeaves more ++ t ∧ FieldsFit (tokenAt 0 t) more ∧ separatesField t = false := by
  refine many_eq_ok_iff_of_items (fun p => p.1 :: p.2.leaves)
    (fun p u => (p.1.Says "," ∨ p.1.Says ";") ∧ NoneOf ["\x7d"] (Leaf.front p.2.leaves none) ∧
      p.2.Fits (tokenAt 0 u))
    (fun u => separatesField u = false) fieldsLeaves
    (fun u more => FieldsFit (tokenAt 0 u) more ∧ separatesField u = false)
    (fun _ _ _ h => nextField_eq_some_iff hr h) (fun _ _ => nextField_eq_none_iff)
    (fun _ => List.cons_ne_nil _ _) rfl (fun _ _ => rfl) (fun _ => ?_) (fun _ _ _ => ?_) hs
  · simp only [FieldsFit, true_and]
  · simp only [FieldsFit, tokenAt_zero_append, and_assoc]

/-- A table that is read fits. -/
theorem fits_of_table (hr : r.Exact n) (hs : s.length ≤ n + 1) {tab : Table}
    (h : table r s = .ok (tab, t)) : s = tab.leaves ++ t ∧ tab.Fits := by
  rw [table, bind_eq_ok_iff] at h
  simp only [expect_eq_ok_iff] at h
  obtain ⟨opening, u, ⟨rfl, hopening⟩, h⟩ := h
  simp only [List.length_cons, Nat.add_le_add_iff_right] at hs
  rw [sees_bind, ite_apply] at h
  split at h
  · next hclose =>
    simp only [bind_eq_ok_iff, next_eq_ok_iff, pure_eq_ok_iff] at h
    obtain ⟨closing, v, rfl, rfl, rfl⟩ := h
    exact ⟨rfl, hopening, by simpa [Leaf.Says] using hclose⟩
  · next hclose =>
    rw [Bool.not_eq_true] at hclose
    obtain ⟨first, v, hfirst, hrest⟩ := bind_eq_ok_iff.1 h
    obtain ⟨more, w, hmore, hlast⟩ := bind_eq_ok_iff.1 hrest
    clear h hrest
    obtain ⟨rfl, hff⟩ := (field_eq_ok_iff hr hs).1 hfirst
    simp only [List.length_append] at hs
    obtain ⟨rfl, hmf, hend⟩ := (fields_eq_ok_iff hr (by omega)).1 hmore
    have hopen : NoneOf ["\x7d"] (Leaf.front first.leaves none) := by
      obtain ⟨l, rest, hl⟩ := first.leaves_eq
      simpa [hl, noneOf_singleton] using hclose
    rw [seesSeparator_bind, ite_apply] at hlast
    split at hlast
    · next hsep =>
      simp only [bind_eq_ok_iff, map_eq_ok_iff, next_eq_ok_iff, expect_eq_ok_iff,
        pure_eq_ok_iff] at hlast
      obtain ⟨_, x, ⟨trailing, rfl, rfl⟩, closing, y, ⟨rfl, hclosing⟩, rfl, rfl⟩ := hlast
      refine ⟨by simp [Table.leaves], hopening, hopen, ?_, hmf, ?_, hclosing⟩
      · rw [tokenAt_zero_append] at hff
        simpa [Leaf.front_append] using hff
      · simpa [Leaf.Says] using hsep
    · next hsep =>
      simp only [bind_eq_ok_iff, expect_eq_ok_iff, pure_eq_ok_iff] at hlast
      obtain ⟨_, x, ⟨rfl, rfl⟩, closing, y, ⟨rfl, hclosing⟩, rfl, rfl⟩ := hlast
      refine ⟨by simp [Table.leaves], hopening, hopen, ?_, hmf, by simp, hclosing⟩
      rw [tokenAt_zero_append] at hff
      simpa using hff

/-- A table that fits is read: the brace or the separator behind its last field ends them. -/
theorem table_of_fits (hr : r.Exact n) {tab : Table} (hs : (tab.leaves ++ t).length ≤ n + 1)
    (hfit : tab.Fits) : table r (tab.leaves ++ t) = .ok (tab, t) := by
  rw [table, bind_eq_ok_iff]
  simp only [expect_eq_ok_iff]
  cases tab with
  | empty opening closing =>
    obtain ⟨hopening, hclosing⟩ := hfit
    have hc : closing.token.text = "\x7d" := hclosing
    refine ⟨opening, _, ⟨rfl, hopening⟩, ?_⟩
    rw [sees_bind, ite_apply, if_pos (by simp [hc])]
    simp only [bind_eq_ok_iff, next_eq_ok_iff, pure_eq_ok_iff]
    exact ⟨closing, t, rfl, rfl, rfl⟩
  | fields opening first more trailing closing =>
    obtain ⟨hopening, hopen, hff, hmf, htrail, hclosing⟩ := hfit
    have hc : closing.token.text = "\x7d" := hclosing
    simp only [Table.leaves, List.cons_append, List.append_assoc, List.length_cons,
      List.length_append, Nat.add_le_add_iff_right] at hs ⊢
    refine ⟨opening, _, ⟨rfl, hopening⟩, ?_⟩
    rw [sees_bind, ite_apply, if_neg]
    · refine bind_eq_ok_iff.2 ⟨first, _, (field_eq_ok_iff hr ?_).2 ⟨rfl, ?_⟩, bind_eq_ok_iff.2
        ⟨more, _, (fields_eq_ok_iff hr ?_).2 ⟨rfl, ?_, ?_⟩, ?_⟩⟩
      · simp only [List.length_append, List.length_cons]
        omega
      · simpa [tokenAt_zero_append, Leaf.front_append] using hff
      · simp only [List.length_append, List.length_cons]
        omega
      · simpa [tokenAt_zero_append] using hmf
      · cases trailing with
        | none => simp [separatesField, hc]
        | some sep => simp [separatesField, hasTextAt_one_cons, hc]
      · rw [seesSeparator_bind, ite_apply]
        cases trailing with
        | none =>
          simp only [Option.toList_none, List.nil_append, hasTextAt_zero_cons, hc]
          rw [if_neg (by decide)]
          simp only [bind_eq_ok_iff, expect_eq_ok_iff, pure_eq_ok_iff]
          exact ⟨none, _, ⟨rfl, rfl⟩, closing, t, ⟨rfl, hclosing⟩, rfl, rfl⟩
        | some sep =>
          have hsep : sep.token.text = "," ∨ sep.token.text = ";" := htrail sep rfl
          rw [if_pos (by simpa using hsep)]
          simp only [bind_eq_ok_iff, map_eq_ok_iff, next_eq_ok_iff, expect_eq_ok_iff,
            pure_eq_ok_iff]
          exact ⟨some sep, _, ⟨sep, rfl, rfl⟩, closing, t, ⟨rfl, hclosing⟩, rfl, rfl⟩
    · obtain ⟨l, rest, hl⟩ := first.leaves_eq
      simpa [hl, noneOf_singleton] using hopen

/-- A table is read exactly. -/
theorem table_eq_ok_iff (hr : r.Exact n) (hs : s.length ≤ n + 1) {tab : Table} :
    table r s = .ok (tab, t) ↔ s = tab.leaves ++ t ∧ tab.Fits := by
  constructor
  · exact fits_of_table hr hs
  · rintro ⟨rfl, hfit⟩
    exact table_of_fits hr hs hfit

/-! ## 2. Functions -/

/-- Another name is read exactly from a comma and a name. An ellipsis behind the comma is
no name, so the second half of the condition says nothing new here. -/
theorem nextParameter_eq_some_iff {c x : Leaf} :
    nextParameter s = .ok (some (c, x), t) ↔
      s = c :: x :: t ∧ c.Says "," ∧ x.IsName := by
  have hcond : nextParameter s =
      if (hasTextAt 0 "," s && !(tokenAt 1 s).any isEllipsis) = true then
        (some <$> nextThen expectName) s else .ok (none, s) := by
    rw [nextParameter, sees_bind, get_bind, ite_apply]
    rfl
  rw [hcond]
  constructor
  · intro h
    split at h
    · next hb =>
      obtain ⟨⟨c', x'⟩, hpair, heq⟩ := map_eq_ok_iff.1 h
      cases heq
      obtain ⟨u, rfl, hu⟩ := nextThen_eq_ok_iff.1 hpair
      obtain ⟨rfl, hname⟩ := expectName_eq_ok_iff.1 hu
      simp only [Bool.and_eq_true, hasTextAt_zero_cons, beq_iff_eq] at hb
      exact ⟨rfl, hb.1, hname⟩
    · cases h
  · rintro ⟨rfl, hc, hx⟩
    have hkind : x.token.kind = .name := hx
    have htext : c.token.text = "," := hc
    rw [if_pos (by simp [tokenAt_one_cons, htext, isEllipsis, hkind])]
    exact map_eq_ok_iff.2 ⟨(c, x), nextThen_eq_ok_iff.2 ⟨_, rfl,
      expectName_eq_ok_iff.2 ⟨rfl, hx⟩⟩, rfl⟩

/-- The repetition stops where no comma stands, and at a comma that an ellipsis follows. -/
theorem nextParameter_eq_none_iff :
    nextParameter s = .ok (none, t) ↔
      s = t ∧ (hasTextAt 0 "," s = true → (tokenAt 1 s).any isEllipsis = true) := by
  have hcond : nextParameter s =
      if (hasTextAt 0 "," s && !(tokenAt 1 s).any isEllipsis) = true then
        (some <$> nextThen expectName) s else .ok (none, s) := by
    rw [nextParameter, sees_bind, get_bind, ite_apply]
    rfl
  rw [hcond]
  cases h1 : hasTextAt 0 "," s with
  | false => simp
  | true =>
    cases h2 : (tokenAt 1 s).any isEllipsis with
    | false => simp [map_eq_ok_iff]
    | true => simp

theorem moreFit_cons {c x : Leaf} {rest : List (Leaf × Leaf)} (hc : c.Says ",") (hx : x.IsName)
    (hrest : Parameters.MoreFit rest) : Parameters.MoreFit ((c, x) :: rest) := by
  cases rest with
  | nil => exact ⟨hc, .inl hx⟩
  | cons p rest => exact ⟨hc, hx, hrest⟩

/-- What the repetition has read, with the comma and the ellipsis that may be behind it, fits
as the rest of a list of parameters: all but the last of its parts are names. -/
theorem moreFit_of_rounds {names : List (Leaf × Leaf)} {last : Option (Leaf × Leaf)}
    (hnames : Rounds nextParameter names s u) (hlast : ifSees "," (nextThen next) u = .ok (last, t)) :
    s = Leaf.ofPairs Leaf.alone (names ++ last.toList) ++ t ∧
      Parameters.MoreFit (names ++ last.toList) := by
  induction names generalizing s with
  | nil =>
    obtain ⟨rfl, hend⟩ := nextParameter_eq_none_iff.1 hnames
    cases last with
    | none =>
      obtain ⟨rfl, -⟩ := ifSees_eq_none_iff.1 hlast
      exact ⟨rfl, trivial⟩
    | some p =>
      obtain ⟨c, x⟩ := p
      obtain ⟨v, rfl, htext, hv⟩ := ifSeesThen_eq_some_iff.1 hlast
      obtain rfl := next_eq_ok_iff.1 hv
      have hx := hend (by simpa [Leaf.Says] using htext)
      exact ⟨rfl, htext, .inr (by simpa [tokenAt_one_cons] using hx)⟩
  | cons p rest ih =>
    obtain ⟨c, x⟩ := p
    obtain ⟨v, hv, hrest⟩ := hnames
    obtain ⟨rfl, hc, hx⟩ := nextParameter_eq_some_iff.1 hv
    obtain ⟨rfl, hfit⟩ := ih hrest
    exact ⟨rfl, moreFit_cons hc hx hfit⟩

/-- A rest of parameters that fits, in front of the closing bracket, is cut into the names of
the repetition and the ellipsis that it leaves, if the last of them is one. -/
theorem rounds_of_moreFit {more : List (Leaf × Leaf)} (hfit : Parameters.MoreFit more)
    (hclose : hasTextAt 0 ")" t = true) :
    ∃ names last u, more = names ++ last.toList ∧
      Rounds nextParameter names (Leaf.ofPairs Leaf.alone more ++ t) u ∧
      ifSees "," (nextThen next) u = .ok (last, t) := by
  have hcomma : ∀ x ∈ tokenAt 0 t, x.text ≠ "," := by
    intro x hx htext
    obtain _ | ⟨l, t⟩ := t
    · cases hx
    · simp only [tokenAt_zero_cons, Option.mem_some_iff] at hx
      subst hx
      simp [htext] at hclose
  have hstop : nextParameter t = .ok (none, t) := by
    refine nextParameter_eq_none_iff.2 ⟨rfl, fun h => ?_⟩
    rw [(hasTextAt_eq_false_iff).2 hcomma] at h
    cases h
  induction more using Parameters.MoreFit.induct with
  | case1 => exact ⟨[], none, t, rfl, hstop, ifSees_eq_none_iff.2 ⟨rfl, hcomma⟩⟩
  | case2 c x =>
    obtain ⟨hc, hx⟩ := hfit
    rcases hx with hx | hx
    · exact ⟨[(c, x)], none, t, rfl, ⟨t, nextParameter_eq_some_iff.2 ⟨rfl, hc, hx⟩, hstop⟩,
        ifSees_eq_none_iff.2 ⟨rfl, hcomma⟩⟩
    · refine ⟨[], some (c, x), c :: x :: t, rfl, nextParameter_eq_none_iff.2 ⟨rfl, fun _ => ?_⟩,
        ifSeesThen_eq_some_iff.2 ⟨x :: t, rfl, hc, next_eq_ok_iff.2 rfl⟩⟩
      change (some x.token).any isEllipsis = true
      simpa using hx
  | case3 c x rest hne ih =>
    obtain _ | ⟨p, rest⟩ := rest
    · exact (hne rfl).elim
    · obtain ⟨hc, hx, hrest⟩ := hfit
      obtain ⟨names, last, u, hmore, hnames, hlast⟩ := ih hrest
      exact ⟨(c, x) :: names, last, u, by simp [hmore],
        ⟨_, nextParameter_eq_some_iff.2 ⟨rfl, hc, hx⟩, hnames⟩, hlast⟩

/-- Parameters are read exactly. -/
theorem parameters_eq_ok_iff {ps : Parameters} :
    parameters s = .ok (ps, t) ↔ s = ps.leaves ++ t ∧ ps.Fits := by
  rw [parameters, bind_eq_ok_iff]
  simp only [expect_eq_ok_iff]
  constructor
  · rintro ⟨opening, u, ⟨rfl, hopening⟩, h⟩
    rw [sees_bind, ite_apply] at h
    split at h
    · simp only [bind_eq_ok_iff, expect_eq_ok_iff, pure_eq_ok_iff] at h
      obtain ⟨closing, v, ⟨rfl, hclosing⟩, rfl, rfl⟩ := h
      exact ⟨rfl, hopening, hclosing⟩
    · next hclose =>
      rw [currentIs_bind, ite_apply] at h
      split at h
      · next hdots =>
        simp only [bind_eq_ok_iff, next_eq_ok_iff, expect_eq_ok_iff, pure_eq_ok_iff] at h
        obtain ⟨first, v, rfl, closing, w, ⟨rfl, hclosing⟩, rfl, rfl⟩ := h
        refine ⟨rfl, hopening, ?_, hclosing, .inl ⟨by simpa using hdots, rfl⟩⟩
        simpa [Leaf.Says] using hclose
      · simp only [bind_eq_ok_iff, expectName_eq_ok_iff, expect_eq_ok_iff, pure_eq_ok_iff] at h
        obtain ⟨first, v, ⟨rfl, hname⟩, names, w, hnames, last, x, hlast, closing, y,
          ⟨rfl, hclosing⟩, rfl, rfl⟩ := h
        have hprogress : Progresses nextParameter v.length := by
          rintro s' ⟨c, x⟩ t' - h'
          obtain ⟨rfl, -, -⟩ := nextParameter_eq_some_iff.1 h'
          simp only [List.length_cons]
          omega
        obtain ⟨rfl, hfit⟩ := moreFit_of_rounds ((many_eq_ok_iff hprogress).1 hnames) hlast
        refine ⟨by simp [Parameters.leaves], hopening, ?_, hclosing, .inr ⟨hname, hfit⟩⟩
        simpa [Leaf.Says] using hclose
  · rintro ⟨rfl, hfit⟩
    cases ps with
    | none opening closing =>
      obtain ⟨hopening, hclosing⟩ := hfit
      have hc : closing.token.text = ")" := hclosing
      refine ⟨opening, _, ⟨rfl, hopening⟩, ?_⟩
      rw [sees_bind, ite_apply, if_pos (by simp [hc])]
      simp only [bind_eq_ok_iff, expect_eq_ok_iff, pure_eq_ok_iff]
      exact ⟨closing, t, ⟨rfl, hclosing⟩, rfl, rfl⟩
    | some opening first more closing =>
      obtain ⟨hopening, hopen, hclosing, hlist⟩ := hfit
      refine ⟨opening, _, ⟨rfl, hopening⟩, ?_⟩
      simp only [List.cons_append, List.append_eq, List.append_assoc, List.nil_append]
      rw [sees_bind, ite_apply, if_neg (by simpa [Leaf.Says] using hopen), currentIs_bind, ite_apply]
      rcases hlist with ⟨hdots, rfl⟩ | ⟨hname, hmore⟩
      · rw [if_pos (by simpa using hdots)]
        simp only [bind_eq_ok_iff, next_eq_ok_iff, expect_eq_ok_iff, pure_eq_ok_iff]
        exact ⟨first, _, rfl, closing, t, ⟨rfl, hclosing⟩, rfl, rfl⟩
      · have hkind : first.token.kind = .name := hname
        have hc : closing.token.text = ")" := hclosing
        rw [if_neg (by simp [isEllipsis, hkind])]
        obtain ⟨names, last, u, rfl, hnames, hlast⟩ :=
          rounds_of_moreFit (t := closing :: t) hmore (by simp [hc])
        have hprogress : Progresses nextParameter
            (Leaf.ofPairs Leaf.alone (names ++ last.toList) ++ closing :: t).length := by
          rintro s' ⟨c, x⟩ t' - h'
          obtain ⟨rfl, -, -⟩ := nextParameter_eq_some_iff.1 h'
          simp only [List.length_cons]
          omega
        simp only [bind_eq_ok_iff, expectName_eq_ok_iff, expect_eq_ok_iff, pure_eq_ok_iff]
        exact ⟨first, _, ⟨rfl, hname⟩, names, u, (many_eq_ok_iff hprogress).2 hnames, last, _, hlast,
          closing, t, ⟨rfl, hclosing⟩, rfl, rfl⟩

theorem Parameters.length_leaves_pos (ps : Parameters) : 0 < ps.leaves.length := by
  cases ps <;> simp [Parameters.leaves]

/-- A function is read exactly from its parameters on. These take a leaf at least, so the
block is read by rules that are exact for one leaf less. -/
theorem body_eq_ok_iff (hr : r.Exact n) (hs : s.length ≤ n + 1) {b : Body} :
    body r s = .ok (b, t) ↔ s = b.leaves ++ t ∧ b.Fits := by
  obtain ⟨ps, block, closing⟩ := b
  have hpos := Parameters.length_leaves_pos
  simp only [body, bind_eq_ok_iff, parameters_eq_ok_iff, expect_eq_ok_iff, pure_eq_ok_iff]
  constructor
  · rintro ⟨ps', u, ⟨rfl, hps⟩, block', v, hblock, closing', w, ⟨rfl, hclosing⟩, heq, rfl⟩
    cases heq
    have hlen := hpos ps
    simp only [List.length_append] at hs
    obtain ⟨rfl, hb⟩ := (hr.block (by omega)).1 hblock
    exact ⟨by simp [Body.leaves], hps, hb, hclosing⟩
  · rintro ⟨rfl, hps, hb, hclosing⟩
    have hlen := hpos ps
    simp only [Body.leaves, List.append_assoc, List.singleton_append, List.length_append,
      List.length_cons] at hs ⊢
    exact ⟨ps, _, ⟨rfl, hps⟩, block, _,
      (hr.block (by simp only [List.length_append, List.length_cons]; omega)).2 ⟨rfl, hb⟩,
      closing, t, ⟨rfl, hclosing⟩, rfl, rfl⟩

end LuaLayout.Parser
