/-
LuaLayout.Proofs.Page.Separate — pages are read back piece by piece.

On a page whose pieces are separate, each text ends before what follows it and
each comment stands before a line end. Such a page, closed by a line end, is cut
into exactly its texts and comments, with the white space between them: what is
put down between two of them makes one piece of white space.
-/
import LuaLayout.Page
import LuaLayout.Proofs.Lexing.Cuts
import LuaLayout.Proofs.Tokens.Joined

namespace LuaLayout

open Lexeme

/-- The classified token of a segment, at the start. -/
def Segment.spelled (version : Version) (s : Segment) : Token :=
  ⟨finalKind version s.kind (String.ofList s.chars), String.ofList s.chars, Position.start⟩

theorem Segment.spelled_rawKind (version : Version) (t : String) :
    Segment.spelled version ⟨rawKind t, t.toList⟩ = spell version t := by
  simp [spelled, spell]

namespace Piece

/-! ## 1. Separate pieces -/

/-- The first character of pieces; after the last one a line ends. -/
def opening : List Piece → Char
  | [] => '\n'
  | .text t :: _ => t.toList.headD '\n'
  | .comment t :: _ => t.toList.headD '\n'
  | .space :: _ => ' '
  | .lineStart _ :: _ => '\n'
  | .blank :: _ => '\n'

/-- Every text ends before what follows it, and every comment before a line end. -/
def Separate : List Piece → Prop
  | [] => True
  | .text t :: rest => Plain t.toList (opening rest) ∧ Separate rest
  | .comment t :: rest => IsRemark t.toList ∧ opening rest = '\n' ∧ Separate rest
  | .space :: rest => Separate rest
  | .lineStart _ :: rest => Separate rest
  | .blank :: rest => Separate rest

theorem remark_starts {w : List Char} (h : IsRemark w) : ∃ rest, w = '-' :: '-' :: rest := by
  rcases h with ⟨body, rfl, -⟩ | ⟨body, rfl, -⟩ <;> exact ⟨body, rfl⟩

theorem plain_starts {w : List Char} {c : Char} (h : Plain w c) :
    ∃ d rest, w = d :: rest ∧ Text.isBlank d = false := by
  obtain ⟨kind, hcode, hlex, -⟩ := h
  exact code_starts hcode hlex

/-- The characters of a page that a line end closes. -/
def closed (pieces : List Piece) : List Char := pieces.flatMap chars ++ ['\n']

theorem closed_cons (piece : Piece) (rest : List Piece) :
    closed (piece :: rest) = piece.chars ++ closed rest := by
  simp [closed]

theorem closed_opening {pieces : List Piece} (h : Separate pieces) :
    ∃ r, closed pieces = opening pieces :: r := by
  cases pieces with
  | nil => exact ⟨[], rfl⟩
  | cons piece rest =>
    rw [closed_cons]
    cases piece with
    | text t =>
      obtain ⟨d, tail, hd, -⟩ := plain_starts h.1
      exact ⟨tail ++ closed rest, by simp [chars, opening, hd]⟩
    | comment t =>
      obtain ⟨tail, hd⟩ := remark_starts h.1
      exact ⟨'-' :: tail ++ closed rest, by simp [chars, opening, hd]⟩
    | space => exact ⟨_, rfl⟩
    | lineStart indent => exact ⟨_, rfl⟩
    | blank => exact ⟨_, rfl⟩

/-! ## 2. Segments -/

/-- White space, if there is any. -/
def gapSegment (gap : List Char) : List Segment :=
  if gap = [] then [] else [⟨.whitespace, gap⟩]

/-- The segments of pieces after white space, with the line end that closes the page. -/
def segments : List Char → List Piece → List Segment
  | gap, [] => [⟨.whitespace, gap ++ ['\n']⟩]
  | gap, .text t :: rest => gapSegment gap ++ ⟨rawKind t, t.toList⟩ :: segments [] rest
  | gap, .comment t :: rest => gapSegment gap ++ ⟨rawKind t, t.toList⟩ :: segments [] rest
  | gap, .space :: rest => segments (gap ++ [' ']) rest
  | gap, .lineStart indent :: rest => segments (gap ++ (Piece.lineStart indent).chars) rest
  | gap, .blank :: rest => segments (gap ++ ['\n']) rest

/-- White space as the page puts it down. -/
def IsGap (gap : List Char) : Prop := ∀ x ∈ gap, x = ' ' ∨ x = '\n'

theorem IsGap.append {gap more : List Char} (h : IsGap gap) (hmore : IsGap more) :
    IsGap (gap ++ more) :=
  fun x hx => (List.mem_append.1 hx).elim (h x) (hmore x)

theorem isGap_lineStart (indent : Int) : IsGap (Piece.lineStart indent).chars := by
  intro x hx
  rcases List.mem_cons.1 hx with rfl | hx
  · exact .inr rfl
  · exact .inl (List.eq_of_mem_replicate hx)

/-- White space before something visible is one segment. -/
theorem cuts_gap {gap text rest : List Char} {later : List Segment} (hgap : IsGap gap)
    (hvisible : ∀ x ∈ text.head?, Text.isBlank x = false) (h : Cuts text later rest) :
    Cuts (gap ++ text) (gapSegment gap ++ later) rest := by
  by_cases hempty : gap = []
  · subst hempty
    exact h
  · rw [gapSegment, if_neg hempty]
    exact .cons (first?_whitespace hempty hgap hvisible) h

/-- A page is cut into its pieces. -/
theorem cuts_segments {pieces : List Piece} {gap : List Char} (h : Separate pieces)
    (hgap : IsGap gap) : Cuts (gap ++ closed pieces) (segments gap pieces) [] := by
  induction pieces generalizing gap with
  | nil =>
    have hline : IsGap (gap ++ ['\n']) := hgap.append (by simp [IsGap])
    have hfirst := first?_whitespace (r := []) (by simp) hline (by simp)
    rw [List.append_nil] at hfirst
    exact .cons hfirst (.nil [])
  | cons piece rest ih =>
    rw [closed_cons]
    cases piece with
    | text t =>
      obtain ⟨⟨kind, hcode, hlex, hfollows, -⟩, hrest⟩ := h
      obtain ⟨r, hr⟩ := closed_opening hrest
      obtain ⟨d, tail, hd, hblank⟩ := code_starts hcode hlex
      have hnil : IsGap [] := by simp [IsGap]
      refine cuts_gap hgap ?_ ?_
      · simpa [chars, hd] using hblank
      · rw [rawKind_code hcode hlex]
        refine .cons (first?_append (TokenKind.isCode_visible hcode) hlex ?_) (ih hrest hnil)
        simpa [hr, chars] using hfollows
    | comment t =>
      obtain ⟨hremark, hopening, hrest⟩ := h
      obtain ⟨r, hr⟩ := closed_opening hrest
      obtain ⟨tail, hd⟩ := remark_starts hremark
      obtain ⟨hkind, hlex, hfollows⟩ := isRemark_rawKind hremark
      have hnil : IsGap [] := by simp [IsGap]
      refine cuts_gap hgap ?_ ?_
      · simp only [chars, hd, List.cons_append, List.head?_cons, Option.mem_some_iff]
        rintro x rfl
        decide
      · refine .cons (first?_append (TokenKind.isRemark_visible hkind) hlex ?_) (ih hrest hnil)
        simpa [hr, hopening, chars] using hfollows
    | space =>
      rw [← List.append_assoc]
      exact ih h (hgap.append (by simp [IsGap, chars]))
    | lineStart indent =>
      rw [← List.append_assoc]
      exact ih h (hgap.append (isGap_lineStart indent))
    | blank =>
      rw [← List.append_assoc]
      exact ih h (hgap.append (by simp [IsGap, chars]))

/-! ## 3. Tokens -/

/-- The token of a text or comment, at the start. -/
def token? (version : Version) : Piece → Option Token
  | .text t => some (spell version t)
  | .comment t => some (spell version t)
  | _ => none

/-- The word of a piece. -/
def word? : Piece → Option String
  | .text t => some t
  | _ => none

section

variable {version : Version} {pieces : List Piece} {gap : List Char}

/-- The version accepts a page whose texts it accepts. -/
theorem accepts_segments (h : Separate pieces)
    (hwords : ∀ t, .text t ∈ pieces → IsCode version t) :
    ∀ s ∈ segments gap pieces, accepts version s.kind (String.ofList s.chars) = true := by
  have hspace : ∀ gap : List Char, ∀ s ∈ gapSegment gap,
      accepts version s.kind (String.ofList s.chars) = true := by
    intro gap s hs
    unfold gapSegment at hs
    split at hs
    · cases hs
    · rw [List.mem_singleton.1 hs]
      rfl
  induction pieces generalizing gap with
  | nil =>
    intro s hs
    rw [List.mem_singleton.1 hs]
    rfl
  | cons piece rest ih =>
    have hrest : ∀ t, .text t ∈ rest → IsCode version t :=
      fun t ht => hwords t (List.mem_cons_of_mem _ ht)
    cases piece with
    | text t =>
      intro s hs
      rcases List.mem_append.1 hs with hs | hs
      · exact hspace gap s hs
      rcases List.mem_cons.1 hs with rfl | hs
      · rw [String.ofList_toList]
        exact (hwords t (by simp)).accepts
      · exact ih h.2 hrest s hs
    | comment t =>
      intro s hs
      rcases List.mem_append.1 hs with hs | hs
      · exact hspace gap s hs
      rcases List.mem_cons.1 hs with rfl | hs
      · exact accepts_remark (isRemark_rawKind h.1).1
      · exact ih h.2.2 hrest s hs
    | space => exact ih h hrest
    | lineStart indent => exact ih h hrest
    | blank => exact ih h hrest

/-- Without its comments, a page is its words. -/
theorem filter_token (h : Separate pieces) (hwords : ∀ t, .text t ∈ pieces → IsCode version t) :
    (pieces.filterMap (token? version)).filter (!Leaf.isComment ·) =
      (pieces.filterMap word?).map (spell version) := by
  induction pieces with
  | nil => rfl
  | cons piece rest ih =>
    have hrest : ∀ t, .text t ∈ rest → IsCode version t :=
      fun t ht => hwords t (List.mem_cons_of_mem _ ht)
    cases piece with
    | text t =>
      have hcode : Leaf.isComment (spell version t) = false := by
        simpa [Leaf.isComment] using (hwords t (by simp)).kind_ne.2
      simp only [List.filterMap_cons, token?, word?, List.map_cons, ← ih h.2 hrest]
      rw [List.filter_cons_of_pos (by simp [hcode])]
    | comment t =>
      have hcomment : Leaf.isComment (spell version t) = true := by
        simp [Leaf.isComment, spell_remark h.1]
      simp only [List.filterMap_cons, token?, word?, ← ih h.2.2 hrest]
      rw [List.filter_cons_of_neg (by simp [hcomment])]
    | space => exact ih h hrest
    | lineStart indent => exact ih h hrest
    | blank => exact ih h hrest

/-- The classified tokens of segments, moved to the start. -/
theorem map_final_place (p : Position) (segments : List Segment) :
    (Segment.place p segments).map (fun t => (t.final version).bare) =
      segments.map (Segment.spelled version) := by
  induction segments generalizing p with
  | nil => rfl
  | cons s rest ih =>
    rw [Segment.place, List.map_cons, ih]
    rfl

theorem map_bare_keptTokens (raw : List Token) :
    (keptTokens version raw).map Token.bare =
      (raw.map fun t => (t.final version).bare).filter Trim.whitespace.keeps := by
  induction raw with
  | nil => rfl
  | cons t rest ih =>
    have hbare : Trim.whitespace.keeps (t.final version).bare =
        Trim.whitespace.keeps (t.final version) := rfl
    rw [List.map_cons, List.filter_cons, hbare, ← ih, keptTokens, List.map_cons, List.filter_cons]
    cases Trim.whitespace.keeps (t.final version) <;> rfl

/-- Without its white space, a page is its texts and comments. -/
theorem keptTokens_segments (h : Separate pieces)
    (hwords : ∀ t, .text t ∈ pieces → IsCode version t) (p : Position) :
    (keptTokens version (Segment.place p (segments gap pieces))).map Token.bare =
      pieces.filterMap (token? version) := by
  rw [map_bare_keptTokens, map_final_place]
  have hgap : ∀ gap : List Char, ((gapSegment gap).map (Segment.spelled version)).filter
      Trim.whitespace.keeps = [] := by
    intro gap
    unfold gapSegment
    split <;> rfl
  induction pieces generalizing gap with
  | nil => rfl
  | cons piece rest ih =>
    have hrest : ∀ t, .text t ∈ rest → IsCode version t :=
      fun t ht => hwords t (List.mem_cons_of_mem _ ht)
    cases piece with
    | text t =>
      have hkeeps : Trim.whitespace.keeps (spell version t) = true := by
        simpa [Trim.keeps] using (hwords t (by simp)).kind_ne.1
      simp only [segments, List.map_append, List.map_cons, List.filter_append, hgap,
        List.nil_append, Segment.spelled_rawKind]
      rw [List.filter_cons_of_pos hkeeps, ih h.2 hrest]
      rfl
    | comment t =>
      have hkeeps : Trim.whitespace.keeps (spell version t) = true := by
        simp [Trim.keeps, spell_remark h.1]
      simp only [segments, List.map_append, List.map_cons, List.filter_append, hgap,
        List.nil_append, Segment.spelled_rawKind]
      rw [List.filter_cons_of_pos hkeeps, ih h.2.2 hrest]
      rfl
    | space => exact ih h hrest
    | lineStart indent => exact ih h hrest
    | blank => exact ih h hrest

end

end Piece

end LuaLayout
