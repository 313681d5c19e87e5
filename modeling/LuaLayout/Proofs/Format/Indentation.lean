/-
LuaLayout.Proofs.Format.Indentation — formatted lines are indented by their depth.

What a layout says of its lines is carried over to the pieces of the page, where
comments take lines too, and from there to the columns of the tokens that the
page is read as. A line begins after white space with a line end in it, so the
column of its first token is known from that white space alone.
-/
import LuaLayout.Proofs.Format.Comments
import LuaLayout.Proofs.Layout.Depth

namespace LuaLayout

open Lexeme Page
open Item (split)

/-! ## 1. Tokens that begin lines -/

namespace Token

/-- The number of constructs that the tokens open, less those that they close. -/
def nesting (tokens : List Token) : Int := tokens.countP opens - tokens.countP closes

/-- Only white space with a line end stands before a token, or nothing at all. -/
def BeginsLine : Option Token → Prop
  | none => True
  | some t => t.kind = .whitespace ∧ '\n' ∈ t.text.toList

end Token

open Token (BeginsLine nesting)

/-- The depth of a token after others. -/
def Token.depthAfter (before : List Token) (t : Token) : Int :=
  nesting before - if t.closes then 1 else 0

/-- Every token that begins a line, after `last` and at the depth so far, stands
in the column of its depth. -/
def Aligned : Option Token → Int → List Token → Prop
  | _, _, [] => True
  | last, depth, t :: rest =>
    (t.kind ≠ .whitespace → BeginsLine last →
        Level (t.pos.col - 1) (depth - if t.closes then 1 else 0)) ∧
      Aligned (some t) (depth + nesting [t]) rest

theorem Token.nesting_append (before after : List Token) :
    nesting (before ++ after) = nesting before + nesting after := by
  simp only [nesting, List.countP_append, Int.natCast_add]
  omega

/-- A token between others is aligned if they all are. -/
theorem Aligned.level {last : Option Token} {depth : Int} {before after : List Token} {t : Token}
    (h : Aligned last depth (before ++ t :: after)) (hkind : t.kind ≠ .whitespace)
    (hline : BeginsLine (before.getLast?.or last)) :
    Level (t.pos.col - 1) (depth + t.depthAfter before) := by
  induction before generalizing last depth with
  | nil =>
    have hhead := h.1 hkind hline
    have hnil : nesting [] = 0 := rfl
    rwa [Token.depthAfter, hnil, Int.zero_sub, ← Int.sub_eq_add_neg]
  | cons b before ih =>
    have hlast : ((b :: before).getLast?.or last) = before.getLast?.or (some b) := by
      cases hbefore : before.getLast? <;> simp [List.getLast?_cons, hbefore]
    have hlater := ih h.2 (hlast ▸ hline)
    have hsplit : nesting (b :: before) = nesting [b] + nesting before :=
      Token.nesting_append [b] before
    rwa [Token.depthAfter, hsplit, Int.add_sub_assoc, ← Int.add_assoc, ← Token.depthAfter]

/-! ## 2. Items with their words taken apart -/

namespace Item

theorem Indented.split {items : List Item} {start : Option Int} {depth : Int}
    (h : Indented start depth items) : Indented start depth (split items) := by
  induction items generalizing start depth with
  | nil => exact h
  | cons item rest ih =>
    cases item with
    | word text remarks =>
      rcases unsign_cases text with hplain | ⟨number, -, hsigned⟩
      · rw [split_plain hplain]
        exact ⟨h.1, ih h.2⟩
      · rw [split_signed hsigned]
        obtain ⟨htext, hminus, hnumber⟩ := neutral_of_unsign hsigned
        obtain ⟨hback, hchange⟩ := Indented.neutral_cases htext
        have hlater := ih h.2
        rw [hchange, Int.add_zero] at hlater
        have hfirst := h.1
        rw [stepBack, if_neg hback] at hfirst
        refine ⟨?_, ?_⟩
        · rwa [stepBack, if_neg (Indented.neutral_cases hminus).1]
        · rw [(Indented.neutral_cases hminus).2, Int.add_zero]
          exact .innerNeutral hnumber hlater
    | omitted remarks => exact ih h
    | space => exact ⟨h.1, ih h.2⟩
    | line indent noteIndent blank => exact ⟨h.1, ih h.2⟩

end Item

/-! ## 3. Pieces -/

namespace Piece

/-- Every line of the pieces is indented as deep as it stands; comments stand
where they are. -/
def Indented : Option Int → Int → List Piece → Prop
  | _, _, [] => True
  | start, depth, .text t :: rest =>
    (∀ indent ∈ start, Level indent (depth - stepBack t)) ∧
      Indented none (depth + depthChange t) rest
  | start, depth, .comment _ :: rest =>
    (∀ indent ∈ start, Level indent depth) ∧ Indented none depth rest
  | start, depth, .space :: rest => start = none ∧ Indented none depth rest
  | _, depth, .lineStart indent :: rest => Indented (some indent) depth rest
  | _, depth, .blank :: rest => Indented (some 0) depth rest

theorem indented_notePieces {notes : List String} {indent depth : Int} {rest : List Piece}
    {start : Option Int} (hlevel : Level indent depth) (hrest : ∀ start, Indented start depth rest) :
    Indented start depth (notePieces indent notes ++ rest) := by
  induction notes generalizing start with
  | nil => exact hrest start
  | cons note notes ih =>
    refine ⟨fun i hi => ?_, ih⟩
    obtain rfl : indent = i := Option.some.inj hi
    exact hlevel

theorem indented_laid {items : List Item} {notes : List String} {start : Option Int} {depth : Int}
    (h : Item.Indented start depth items) : Indented start depth (laid notes items) := by
  induction items generalizing start depth notes with
  | nil =>
    obtain rfl : depth = 0 := h
    have hnotes : Indented start 0 (notePieces 0 notes ++ []) :=
      indented_notePieces ⟨Int.le_refl _, rfl⟩ fun _ => trivial
    rwa [List.append_nil] at hnotes
  | cons item rest ih =>
    cases item with
    | word text remarks => exact ⟨h.1, ih h.2⟩
    | omitted remarks => exact ih h
    | space => exact ⟨h.1, ih h.2⟩
    | line indent noteIndent blank =>
      have hlater : ∀ start, Indented start depth
          (notePieces noteIndent notes ++ .lineStart indent :: laid [] rest) :=
        fun _ => indented_notePieces h.1 fun _ => ih h.2
      cases blank with
      | true => exact hlater _
      | false => exact hlater _

end Piece

/-! ## 4. Columns -/

theorem Position.col_advance_spaces (p : Position) (n : Nat) :
    (p.advance (List.replicate n ' ')).col = p.col + n := by
  induction n generalizing p with
  | zero => simp
  | succ n ih =>
    have hstep : p.step ' ' = ⟨p.line, p.col + 1⟩ := rfl
    rw [List.replicate_succ, Position.advance, List.foldl_cons, hstep]
    refine (ih _).trans ?_
    push_cast
    omega

/-- The column after a line end and indentation. -/
theorem Position.col_advance_lineStart (p : Position) (gap : List Char) (indent : Int) :
    (p.advance (gap ++ (Piece.lineStart indent).chars)).col = 1 + indent.toNat := by
  have hline : (p.advance (gap ++ (Piece.lineStart indent).chars)) =
      Position.advance ⟨(p.advance gap).line + 1, 1⟩ (List.replicate indent.toNat ' ') := by
    rw [Position.advance_append]
    rfl
  rw [hline, Position.col_advance_spaces]

namespace Piece

/-- What is known in front of a piece: whether it begins a line, and if so its column. -/
def Stands (start : Option Int) (last : Option Token) (p : Position) (gap : List Char) : Prop :=
  match start with
  | none => ¬ BeginsLine (lastToken last gap)
  | some indent => BeginsLine (lastToken last gap) ∧ (p.advance gap).col = 1 + indent.toNat

section

variable {version : Version} {last : Option Token} {depth indent : Int} {start : Option Int}
  {p : Position} {gap : List Char} {t : Token} {tokens : List Token} {text : String}

theorem nesting_spell (hspell : t.bare = spell version text) :
    (if t.closes then 1 else 0 : Int) = stepBack text ∧ nesting [t] = depthChange text := by
  have hopens : t.opens = true ↔ text ∈ openers :=
    Token.isOneOf_iff (fun _ h => List.mem_append_left _ h) hspell
  have hcloses : t.closes = true ↔ text ∈ closers :=
    Token.isOneOf_iff (fun _ h => List.mem_append_right _ h) hspell
  have hstep : (if t.closes then 1 else 0 : Int) = stepBack text := by simp only [hcloses, stepBack]
  refine ⟨hstep, ?_⟩
  rw [depthChange, ← hstep]
  simp only [nesting, List.countP_singleton, ← hopens]
  split <;> split <;> rfl

theorem nesting_other (hkind : t.kind = .whitespace ∨ t.kind = .comment) :
    t.closes = false ∧ nesting [t] = 0 := by
  have hnone : ∀ texts, t.isOneOf texts = false := by
    intro texts
    rcases hkind with hkind | hkind <;> simp [Token.isOneOf, hkind]
  refine ⟨hnone closers, ?_⟩
  rw [nesting, List.countP_singleton, List.countP_singleton, Token.opens, Token.closes, hnone, hnone]
  rfl

/-- White space takes no part but in the line that it lets begin. -/
theorem aligned_gap (h : ∀ u, (BeginsLine u ↔ BeginsLine (lastToken last gap)) →
      Aligned u depth tokens) :
    Aligned last depth
      ((Segment.place p (gapSegment gap)).map (Token.final version) ++ tokens) := by
  unfold gapSegment
  split
  · next hgap => exact h last (by rw [lastToken, if_pos hgap])
  · next hgap =>
    have hzero : nesting [(⟨.whitespace, String.ofList gap, p⟩ : Token).final version] = 0 :=
      (nesting_other (.inl rfl)).2
    refine ⟨fun hkind => absurd rfl hkind, ?_⟩
    rw [hzero, Int.add_zero]
    exact h _ (by rw [lastToken, if_neg hgap]; rfl)

/-- A token where a piece stands, at the indentation of its depth. -/
theorem Stands.level {u : Option Token} {back : Int} (h : Stands start last p gap)
    (hlevel : ∀ indent ∈ start, Level indent (depth - back))
    (hu : BeginsLine u ↔ BeginsLine (lastToken last gap)) (hline : BeginsLine u) :
    Level ((p.advance gap).col - 1) (depth - back) := by
  cases start with
  | none => exact absurd (hu.1 hline) h
  | some indent =>
    have hindent := hlevel indent rfl
    have hcol : (p.advance gap).col - 1 = indent := by
      have hnonneg := hindent.indent_nonneg
      have hstands := h.2
      omega
    rwa [hcol]

theorem stands_none (hkind : t.kind ≠ .whitespace) : Stands none (some t) p [] :=
  fun hline => hkind hline.1

theorem gapSegment_chars (gap : List Char) : (gapSegment gap).flatMap Segment.chars = gap := by
  unfold gapSegment
  split
  · next h => exact h.symm
  · simp

/-- A line end and indentation are a line to begin. -/
theorem stands_lineStart (indent : Int) :
    Stands (some indent) last p (gap ++ (lineStart indent).chars) := by
  refine ⟨?_, Position.col_advance_lineStart p gap indent⟩
  rw [lastToken, if_neg (by simp [chars])]
  exact ⟨rfl, by simp [chars]⟩

/-- A space begins no line. -/
theorem stands_space (h : Stands none last p gap) : Stands none last p (gap ++ [' ']) := by
  intro hline
  rw [lastToken, if_neg (by simp)] at hline
  have hmem : '\n' ∈ gap := by simpa using hline.2
  refine h ?_
  rw [lastToken, if_neg (List.ne_nil_of_mem hmem)]
  exact ⟨rfl, by simpa using hmem⟩

/-- The tokens of a page whose pieces are indented stand in the columns of their depths. -/
theorem aligned_segments {pieces : List Piece} (hseparate : Separate pieces)
    (hwords : ∀ t, .text t ∈ pieces → IsCode version t) (h : Indented start depth pieces)
    (hstands : Stands start last p gap) :
    Aligned last depth ((Segment.place p (segments gap pieces)).map (Token.final version)) := by
  induction pieces generalizing start depth last p gap with
  | nil => exact ⟨fun hkind => absurd rfl hkind, trivial⟩
  | cons piece rest ih =>
    have hrest : ∀ t, .text t ∈ rest → IsCode version t :=
      fun t ht => hwords t (List.mem_cons_of_mem _ ht)
    cases piece with
    | text text =>
      -- the token of the text, right after the white space
      obtain ⟨t, ht⟩ : ∃ t : Token, t = (⟨rawKind text, String.ofList text.toList,
        p.advance gap⟩ : Token).final version := ⟨_, rfl⟩
      have hspell : t.bare = spell version text := by rw [ht, String.ofList_toList]; rfl
      have hkind : t.kind ≠ .whitespace := by
        have hspace := (hwords text (by simp)).kind_ne.1
        rwa [← hspell] at hspace
      obtain ⟨hback, hchange⟩ := nesting_spell hspell
      have hlater : Aligned (some t) (depth + depthChange text) ((Segment.place
          ((p.advance gap).advance text.toList) (segments [] rest)).map (Token.final version)) :=
        ih hseparate.2 hrest h.2 (stands_none hkind)
      simp only [segments, Segment.place_append, gapSegment_chars, Segment.place, List.map_append,
        List.map_cons, ← ht]
      refine aligned_gap fun u hu => ⟨fun _ hline => ?_, ?_⟩
      · rw [hback, show t.pos = p.advance gap by rw [ht]; rfl]
        exact hstands.level h.1 hu hline
      · rwa [hchange]
    | comment text =>
      obtain ⟨t, ht⟩ : ∃ t : Token, t = (⟨rawKind text, String.ofList text.toList,
        p.advance gap⟩ : Token).final version := ⟨_, rfl⟩
      have hkind : t.kind = .comment := by
        have hspell : t.bare = spell version text := by rw [ht, String.ofList_toList]; rfl
        have hremark : (spell version text).kind = .comment := spell_remark hseparate.1
        rwa [← hspell] at hremark
      obtain ⟨hcloses, hchange⟩ := nesting_other (.inr hkind)
      have hlater : Aligned (some t) depth ((Segment.place
          ((p.advance gap).advance text.toList) (segments [] rest)).map (Token.final version)) :=
        ih hseparate.2.2 hrest h.2 (stands_none (by simp [hkind]))
      simp only [segments, Segment.place_append, gapSegment_chars, Segment.place, List.map_append,
        List.map_cons, ← ht]
      refine aligned_gap fun u hu => ⟨fun _ hline => ?_, ?_⟩
      · rw [hcloses, show t.pos = p.advance gap by rw [ht]; rfl]
        refine hstands.level (fun i hi => ?_) hu hline
        simpa using h.1 i hi
      · rwa [hchange, Int.add_zero]
    | space =>
      obtain ⟨rfl, hlater⟩ := h
      exact ih hseparate hrest hlater (stands_space hstands)
    | lineStart indent => exact ih hseparate hrest h (stands_lineStart indent)
    | blank => exact ih hseparate hrest h (stands_lineStart 0)

end

end Piece

/-! ## 5. The output -/

section

variable {version : Version} {source text : String} {raw : List Token} {tree : Block}

theorem Reads.indented (h : Reads version source raw tree) :
    Item.Indented none 0 (split (tree.layout false 0)) := by
  have hlevel : Level 0 ([] : List Bool).length := ⟨Int.le_refl _, rfl⟩
  have hnil : Item.Indented none 0 [] := rfl
  have hall : Item.Indented none 0 (tree.layout false 0 ++ []) :=
    Block.walk (Item.Indented.walks version) tree h.fits h.genuine hlevel fun _ => hnil
  rw [List.append_nil] at hall
  exact hall.split

/-- The indentation of a formatted program is its depth: a token that begins a
line, be it code or a comment, stands four columns deeper for each construct that
is open before it, where a closer has already left the construct that it closes. -/
theorem indentation_format (h : format version source = .ok text) :
    ∃ written, classified version text = .ok written ∧
      ∀ before t after, written = before ++ t :: after → t.kind ≠ .whitespace →
        BeginsLine before.getLast? →
        0 ≤ t.depthAfter before ∧ t.pos.col = 1 + 4 * t.depthAfter before := by
  obtain ⟨raw, tree, hreads, rfl⟩ := format_eq_ok_iff.1 h
  obtain ⟨segments, htokens, hsegments⟩ := hreads.output_segments
  rcases hsegments with ⟨-, rfl⟩ | ⟨pieces, hpieces, hseparate, hwords, rfl⟩
  · exact ⟨[], classified_of_tokens htokens (by simp [Segment.place]), by simp⟩
  · have haccepted := accepts_place (@Piece.accepts_segments _ _ [] hseparate hwords) Position.start
    refine ⟨_, classified_of_tokens htokens haccepted, ?_⟩
    intro before t after hwritten hkind hline
    have hindented : Piece.Indented (some 0) 0 pieces := by
      have hall : Piece.Indented none 0 (piecesOf version raw tree) :=
        Piece.indented_laid hreads.indented
      rwa [hpieces] at hall
    have hstands : Piece.Stands (some 0) none Position.start [] := ⟨trivial, rfl⟩
    have haligned := Piece.aligned_segments hseparate hwords hindented hstands
    rw [hwritten] at haligned
    obtain ⟨hnonneg, hcol⟩ := haligned.level hkind (by simpa using hline)
    rw [Int.zero_add] at hnonneg hcol
    refine ⟨hnonneg, ?_⟩
    rw [indentStep] at hcol
    omega

/-- A comment before the closing word of a loop stands inside it, and a table in
its condition is indented as deep as it is nested. -/
theorem indentation_format_loop :
    format 1 "while \x7bf\x7d do g() --a\nend" =
        .ok "while \x7b\n    f\n\x7d do\n    g()\n    --a\nend\n" ∧
      ∃ written, classified 1 "while \x7b\n    f\n\x7d do\n    g()\n    --a\nend\n" = .ok written ∧
        ∀ before t after, written = before ++ t :: after → t.kind ≠ .whitespace →
          BeginsLine before.getLast? →
          0 ≤ t.depthAfter before ∧ t.pos.col = 1 + 4 * t.depthAfter before := by
  have h : format 1 "while \x7bf\x7d do g() --a\nend" =
      .ok "while \x7b\n    f\n\x7d do\n    g()\n    --a\nend\n" := by decide +kernel
  exact ⟨h, indentation_format h⟩

end

end LuaLayout
