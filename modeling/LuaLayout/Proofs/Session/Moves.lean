/-
LuaLayout.Proofs.Session.Moves — what a session can go through.

Whatever a session is asked, it does no more than take the next leaf, whose
comments wait from then on, and put something down. `Move` lists these steps, and
what each of them keeps holds after any request. A session rests on a token that
is no comment, or at the end, and the comments that it has passed are those that
it has put down and those that wait.
-/
import Mathlib.Logic.Relation
import LuaLayout.Session
import LuaLayout.Proofs.Page.Operations
import LuaLayout.Proofs.Tokens.Joined

namespace LuaLayout

namespace Leaf

/-- A token that is no comment, and comments. -/
def Whole (l : Leaf) : Prop :=
  isComment l.token = false ∧ ∀ c ∈ l.comments, isComment c = true

theorem whole_of_mem {tokens : List Token} {l : Leaf} (h : l ∈ (ofTokens tokens).2) : l.Whole := by
  obtain ⟨⟨-, htoken⟩, hcomments⟩ := of_mem_leaves h
  exact ⟨isComment_eq_false_iff.2 htoken, fun c hc => isComment_iff.2 (hcomments c hc).2⟩

/-- Whole leaves are what their own tokens make. -/
theorem ofTokens_flatMap {leaves : List Leaf} (h : ∀ l ∈ leaves, l.Whole) :
    ofTokens (leaves.flatMap Leaf.tokens) = ([], leaves) := by
  induction leaves with
  | nil => rfl
  | cons l rest ih =>
    obtain ⟨⟨htoken, hcomments⟩, hrest⟩ := List.forall_mem_cons.1 h
    have htokens : (l :: rest).flatMap Leaf.tokens =
        l.token :: (l.comments ++ rest.flatMap Leaf.tokens) := rfl
    rw [htokens, ofTokens_cons, htoken, ofTokens_comments hcomments, ih hrest]
    simp

/-- The comments of a whole leaf are those that it makes wait. -/
theorem Whole.remarks_eq {l : Leaf} (h : l.Whole) :
    (l.tokens.filter isComment).map (·.text) = l.remarks := by
  have htoken : ¬ isComment l.token = true := by simp [h.1]
  rw [tokens, List.filter_cons_of_neg htoken, List.filter_eq_self.2 h.2]
  rfl

end Leaf

/-! ## 1. Steps -/

/-- The comments that come with an item. -/
def Item.remarks : Item → List String
  | .word _ remarks => remarks
  | .omitted remarks => remarks
  | .space => []
  | .line _ _ _ => []

namespace Session

/-- A step of a session. -/
inductive Move : Session → Session → Prop
  /-- The next leaf is taken, and its comments wait. -/
  | take {s : Session} {l : Leaf} {rest : List Leaf} (h : s.ahead = l :: rest) :
    Move s { s with ahead := rest, page := s.page.queueAll l.remarks }
  /-- Something that no comment comes with is put down. -/
  | lay {s : Session} {item : Item} (h : item.remarks = []) :
    Move s { s with page := s.page.lay item }
  /-- The comments that wait are put down. -/
  | flush {s : Session} {indent : Int} : Move s { s with page := s.page.flush indent }

/-- Steps one after another. -/
abbrev Moves : Session → Session → Prop := Relation.ReflTransGen Move

/-! ## 2. What stays and what grows -/

/-- The later session looks at the same tokens in the same style, further on or in place. -/
structure Follows (s t : Session) : Prop where
  tokens : t.tokens = s.tokens
  style : t.style = s.style
  ahead : t.ahead <:+ s.ahead

theorem Follows.refl (s : Session) : s.Follows s := ⟨rfl, rfl, List.suffix_refl _⟩

theorem Follows.trans {s t u : Session} (h : s.Follows t) (hlater : t.Follows u) : s.Follows u :=
  ⟨hlater.tokens.trans h.tokens, hlater.style.trans h.style, hlater.ahead.trans h.ahead⟩

theorem Follows.length_le {s t : Session} (h : s.Follows t) : t.ahead.length ≤ s.ahead.length :=
  h.ahead.length_le

theorem Move.follows {s t : Session} (h : s.Move t) : s.Follows t := by
  cases h with
  | take hahead => exact ⟨rfl, rfl, hahead ▸ List.suffix_cons _ _⟩
  | lay _ => exact ⟨rfl, rfl, List.suffix_refl _⟩
  | flush => exact ⟨rfl, rfl, List.suffix_refl _⟩

theorem Moves.follows {s t : Session} (h : s.Moves t) : s.Follows t := by
  induction h with
  | refl => exact .refl s
  | tail _ hmove ih => exact ih.trans hmove.follows

/-- Fewer leaves ahead of the same tokens: the position is behind. -/
theorem Follows.position_le {s t : Session} (h : s.Follows t) : s.position ≤ t.position := by
  obtain ⟨passed, hpassed⟩ := h.ahead
  unfold position
  rw [h.tokens, ← hpassed, List.flatMap_append, List.length_append]
  omega

/-! ## 3. Places of rest -/

/-- Nothing but whole leaves is ahead, the first of which begins where the session
stands, and every comment before it has been put down or waits. -/
structure Rests (s : Session) : Prop where
  ahead : Leaf.ofTokens (s.tokens.drop s.position) = ([], s.ahead)
  notes : ((s.tokens.take s.position).filter Leaf.isComment).map (·.text) =
    s.page.notes ++ s.page.waiting

namespace Rests

variable {s t : Session}

/-- What is ahead are the tokens from the position on. -/
theorem drop_eq (h : s.Rests) : s.tokens.drop s.position = s.ahead.flatMap Leaf.tokens := by
  have htokens := Leaf.ofTokens_append (s.tokens.drop s.position)
  rw [h.ahead] at htokens
  exact htokens.symm

theorem length_eq (h : s.Rests) :
    s.position + (s.ahead.flatMap Leaf.tokens).length = s.tokens.length := by
  rw [← h.drop_eq, List.length_drop]
  unfold position
  omega

theorem whole (h : s.Rests) {l : Leaf} (hl : l ∈ s.ahead) : l.Whole := by
  have hmem : l ∈ (Leaf.ofTokens (s.tokens.drop s.position)).2 := by
    rw [h.ahead]
    exact hl
  exact Leaf.whole_of_mem hmem

/-- The session stands at the end, or at a token that is no comment. -/
theorem rest_cases (h : s.Rests) :
    (s.ahead = [] ∧ s.position = s.tokens.length) ∨
      ∃ l rest, s.ahead = l :: rest ∧ s.tokens[s.position]? = some l.token ∧ l.Whole := by
  cases hahead : s.ahead with
  | nil =>
    have hlength := h.length_eq
    rw [hahead] at hlength
    exact .inl ⟨rfl, hlength⟩
  | cons l rest =>
    have hdrop := h.drop_eq
    refine .inr ⟨l, rest, rfl, ?_, h.whole (hahead ▸ List.mem_cons_self)⟩
    rw [← List.head?_drop, hdrop, hahead]
    rfl

/-- Whole leaves at the end of the tokens, and before them what the page knows. -/
theorem of_split {passed : List Token} (htokens : s.tokens = passed ++ s.ahead.flatMap Leaf.tokens)
    (hwhole : ∀ l ∈ s.ahead, l.Whole)
    (hnotes : (passed.filter Leaf.isComment).map (·.text) = s.page.notes ++ s.page.waiting) :
    s.Rests := by
  have hposition : s.position = passed.length := by
    unfold position
    rw [htokens, List.length_append, Nat.add_sub_cancel]
  constructor
  · rw [hposition, htokens, List.drop_left]
    exact Leaf.ofTokens_flatMap hwhole
  · rw [hposition, htokens, List.take_left]
    exact hnotes

/-- The tokens are those passed and those of the leaves ahead. -/
theorem split (h : s.Rests) :
    s.tokens = s.tokens.take s.position ++ s.ahead.flatMap Leaf.tokens := by
  rw [← h.drop_eq, List.take_append_drop]

theorem start (style : Style) (tokens : List Token) : (Session.start style tokens).Rests := by
  have hsplit : (Session.start style tokens).tokens =
      (Leaf.ofTokens tokens).1 ++ (Session.start style tokens).ahead.flatMap Leaf.tokens :=
    (Leaf.ofTokens_append tokens).symm
  refine of_split hsplit (fun l hl => Leaf.whole_of_mem hl) ?_
  have hcomments : ∀ c ∈ (Leaf.ofTokens tokens).1, Leaf.isComment c = true :=
    fun c hc => Leaf.isComment_iff.2 (Leaf.of_mem_lead hc).2
  rw [List.filter_eq_self.2 hcomments]
  rfl

/-- Nothing but the page changes, and it neither loses nor repeats a comment. -/
theorem of_page {page : Page} (h : s.Rests)
    (hpage : page.notes ++ page.waiting = s.page.notes ++ s.page.waiting) :
    ({ s with page := page } : Session).Rests :=
  ⟨h.ahead, h.notes.trans hpage.symm⟩

/-- The comments of a leaf that is taken wait behind all others. -/
theorem take {l : Leaf} {rest : List Leaf} (h : s.Rests) (hahead : s.ahead = l :: rest) :
    ({ s with ahead := rest, page := s.page.queueAll l.remarks } : Session).Rests := by
  have hsplit := h.split
  rw [hahead, List.flatMap_cons, ← List.append_assoc] at hsplit
  refine of_split hsplit (fun m hm => h.whole (hahead ▸ List.mem_cons_of_mem l hm)) ?_
  have hl : l.Whole := h.whole (hahead ▸ List.mem_cons_self)
  rw [List.filter_append, List.map_append, h.notes, hl.remarks_eq, List.append_assoc]
  rfl

theorem lay {item : Item} (h : s.Rests) (hitem : item.remarks = []) :
    ({ s with page := s.page.lay item } : Session).Rests := by
  refine h.of_page ?_
  cases item with
  | word text remarks =>
    obtain rfl : remarks = [] := hitem
    have hwrite := s.page.notes_perform (.write text)
    show (s.page.put (.text text)).notes ++ (s.page.waiting ++ []) = _
    rw [List.append_nil]
    exact hwrite.trans (List.append_nil _)
  | omitted remarks =>
    obtain rfl : remarks = [] := hitem
    show s.page.notes ++ (s.page.waiting ++ []) = _
    rw [List.append_nil]
  | space =>
    show (s.page.put .space).list.filterMap Piece.note? ++ _ = _
    rw [Page.list_put, List.filterMap_append]
    exact congrArg (· ++ s.page.waiting) (List.append_nil _)
  | line indent noteIndent blank =>
    have hline := s.page.notes_perform (.lineBreak indent (some noteIndent) blank)
    exact hline.trans (List.append_nil _)

theorem flush (h : s.Rests) (indent : Int) :
    ({ s with page := s.page.flush indent } : Session).Rests := by
  have hflush := s.page.notes_perform (.flush indent)
  exact h.of_page (hflush.trans (List.append_nil _))

end Rests

/-- A step goes from one place of rest to another. -/
theorem Move.rests {s t : Session} (h : s.Move t) (hrests : s.Rests) : t.Rests := by
  cases h with
  | take hahead => exact hrests.take hahead
  | lay hitem => exact hrests.lay hitem
  | flush => exact hrests.flush _

theorem Moves.rests {s t : Session} (h : s.Moves t) (hrests : s.Rests) : t.Rests := by
  induction h with
  | refl => exact hrests
  | tail _ hmove ih => exact hmove.rests ih

/-- Of two sessions further on than a place of rest, the one with fewer leaves ahead has
passed more tokens. -/
theorem Follows.position_lt {s t u : Session} (hs : s.Rests) (ht : s.Follows t) (hu : s.Follows u)
    (hlt : u.ahead.length < t.ahead.length) : t.position < u.position := by
  obtain ⟨between, hbetween⟩ := List.suffix_of_suffix_length_le hu.ahead ht.ahead hlt.le
  obtain ⟨passed, hpassed⟩ := ht.ahead
  have hlength := hs.length_eq
  obtain ⟨l, rest, rfl⟩ : ∃ l rest, between = l :: rest := by
    refine List.exists_cons_of_ne_nil fun hnil => ?_
    rw [← hbetween, hnil] at hlt
    exact Nat.lt_irrefl _ hlt
  rw [← hpassed, ← hbetween] at hlength
  unfold position
  rw [ht.tokens, hu.tokens, ← hbetween]
  simp only [List.flatMap_append, List.flatMap_cons, List.length_append, Leaf.tokens,
    List.length_cons] at hlength ⊢
  omega

end Session

end LuaLayout
