/-
LuaLayout.Proofs.Format.Spacing — the white space of formatted programs.

Between two tokens of the output stands nothing, one space, or one or two line
ends and indentation. Which one is two line ends is said by the layout for the
words of a tree. It is carried over to the pieces of the page, where comments
take lines before the next word, and from there to the tokens that the page is
read as: a piece of white space is put down in parts, so the pieces are followed
with the white space so far.
-/
import LuaLayout.Proofs.Format.Comments
import LuaLayout.Proofs.Layout.BlankLines

namespace LuaLayout

open Lexeme Page
open Item (Apart Visible Blanks split texts)

/-! ## 1. White space between tokens -/

/-- White space as it stands between tokens, and whether it leaves a line blank. -/
inductive Gap : Bool → List Char → Prop
  | none : Gap false []
  | space : Gap false [' ']
  | line (indent : Nat) : Gap false ('\n' :: List.replicate indent ' ')
  | blank (indent : Nat) : Gap true ('\n' :: '\n' :: List.replicate indent ' ')

/-- The token is white space of so many line ends and indentation. -/
def Token.IsLines (n : Nat) (t : Token) : Prop :=
  t.kind = .whitespace ∧
    ∃ indent, t.text.toList = List.replicate n '\n' ++ List.replicate indent ' '

theorem Gap.eq_true_iff {blank : Bool} {text : List Char} (h : Gap blank text) :
    blank = true ↔ ∃ indent, text = '\n' :: '\n' :: List.replicate indent ' ' := by
  cases h with
  | none => simp
  | space => simp
  | line indent => cases indent <;> simp [List.replicate_succ]
  | blank indent => exact ⟨fun _ => ⟨indent, rfl⟩, fun _ => rfl⟩

/-- The white space that tokens begin with, if there is any. -/
def gapText : List Token → List Char
  | [] => []
  | t :: _ => if t.kind = .whitespace then t.text.toList else []

/-- A declared function has been closed and the tokens go on with a statement. -/
def leavesBlank (s : Scope) (tokens : List Token) : Bool :=
  s.declared && startsStatement (programTexts tokens).head?

/-- Before every token stands a gap, which leaves a line blank where it has to. -/
def Spaced : Scope → List Token → Prop
  | _, [] => True
  | s, t :: rest => Gap (leavesBlank s (t :: rest)) (gapText (t :: rest)) ∧ Spaced (s.after t) rest

theorem gapText_bare (tokens : List Token) : gapText (tokens.map Token.bare) = gapText tokens := by
  cases tokens <;> rfl

theorem leavesBlank_bare (s : Scope) (tokens : List Token) :
    leavesBlank s (tokens.map Token.bare) = leavesBlank s tokens := by
  rw [leavesBlank, programTexts_bare, leavesBlank]

theorem spaced_bare {s : Scope} {tokens : List Token} :
    Spaced s (tokens.map Token.bare) ↔ Spaced s tokens := by
  induction tokens generalizing s with
  | nil => rfl
  | cons t rest ih =>
    have hgap := gapText_bare (t :: rest)
    have hblank := leavesBlank_bare s (t :: rest)
    rw [List.map_cons] at hgap hblank
    rw [List.map_cons, Spaced, Spaced, hgap, hblank, Scope.after_bare, ih]

/-- Between any two tokens there is a gap. -/
theorem Spaced.gap {s : Scope} {before after : List Token} (h : Spaced s (before ++ after)) :
    Gap (leavesBlank (before.foldl Scope.after s) after) (gapText after) := by
  induction before generalizing s with
  | nil =>
    cases after with
    | nil =>
      have hnone : leavesBlank s [] = false := Bool.and_false _
      rw [List.foldl_nil, hnone]
      exact .none
    | cons t rest => exact h.1
  | cons t before ih => exact ih h.2

/-! ## 2. Pieces -/

namespace Piece

/-- White space before each text and comment is a gap, which leaves a line blank
where it has to; `gap` is the white space that has just been put down. -/
def Spaced (version : Version) : Scope → List Char → List Piece → Prop
  | _, gap, [] => gap = []
  | s, gap, .text t :: rest =>
    Gap (s.declared && startsStatement (some t)) gap ∧
      Spaced version (s.take (spell version t)) [] rest
  | s, gap, .comment _ :: rest =>
    Gap (s.declared && startsStatement (rest.filterMap word?).head?) gap ∧
      Spaced version s.pass [] rest
  | s, gap, .space :: rest => Spaced version s (gap ++ [' ']) rest
  | s, gap, .lineStart indent :: rest => Spaced version s (gap ++ (lineStart indent).chars) rest
  | s, gap, .blank :: rest => Spaced version s (gap ++ ['\n']) rest

section

variable {version : Version} {s u : Scope} {gap : List Char} {items : List Item}
  {notes : List String} {rest : List Piece} {indent : Int}

/-- The words of a page are those of its items. -/
theorem word?_laid : (laid notes (split items)).filterMap word? = texts items := by
  rw [filterMap_word_laid, Item.texts_eq]

/-- Only the white space before the first comment can leave a line blank. -/
theorem spaced_notePieces
    (hgap : ∀ indent : Nat, Gap (s.declared && startsStatement (rest.filterMap word?).head?)
      (gap ++ '\n' :: List.replicate indent ' '))
    (hhere : Spaced version s gap rest) (hlater : Spaced version s.pass [] rest) :
    Spaced version s gap (notePieces indent notes ++ rest) := by
  induction notes generalizing s gap with
  | nil => exact hhere
  | cons note notes ih =>
    have hpieces : notePieces indent (note :: notes) ++ rest =
        .lineStart indent :: .comment note :: (notePieces indent notes ++ rest) := rfl
    rw [hpieces]
    refine ⟨?_, ih (s := s.pass) Gap.line hlater hlater⟩
    rw [List.filterMap_append, filterMap_word_notePieces]
    exact hgap indent.toNat

/-- A line, after the comments that wait: the first of them, or else the line itself,
comes after the blank line. -/
theorem spaced_line {noteIndent : Int} {blank : Bool}
    (hblank : blank = (s.declared && startsStatement (texts items).head?))
    (hstart : ∀ (v : Scope) (gap : List Char), v.pass = s.pass →
      (∀ indent : Nat, Gap (v.declared && startsStatement (texts items).head?)
        (gap ++ '\n' :: List.replicate indent ' ')) →
      Spaced version v gap (.lineStart indent :: laid [] (split items))) :
    Spaced version s [] (laid notes (split (.line indent noteIndent blank :: items))) := by
  have hwords : (lineStart indent :: laid [] (split items)).filterMap word? = texts items :=
    word?_laid
  have hpieces : ∀ gap, (∀ indent : Nat, Gap blank (gap ++ '\n' :: List.replicate indent ' ')) →
      Spaced version s gap
        (notePieces noteIndent notes ++ .lineStart indent :: laid [] (split items)) := by
    intro gap hgap
    rw [hblank] at hgap
    refine spaced_notePieces ?_ (hstart s gap rfl hgap) (hstart s.pass [] rfl Gap.line)
    rw [hwords]
    exact hgap
  cases blank with
  | true => exact hpieces ['\n'] Gap.blank
  | false => exact hpieces [] Gap.line

/-- What has been put down before items: nothing, or a gap before a word. -/
theorem spaced_laid (h : Blanks version s items) (hapart : Apart items) (hscope : u.pass = s.pass)
    (hgap : gap = [] ∧ u = s ∨
      Visible items ∧ Gap (u.declared && startsStatement (texts items).head?) gap) :
    Spaced version u gap (laid notes (split items)) := by
  induction items generalizing s u gap notes with
  | nil =>
    rcases hgap with ⟨rfl, rfl⟩ | ⟨hvisible, -⟩
    · have hnone : (u.declared && startsStatement none) = false := Bool.and_false _
      have hnotes : Spaced version u [] (notePieces 0 notes ++ []) := by
        refine spaced_notePieces (fun indent => ?_) rfl rfl
        rw [List.filterMap_nil, List.head?_nil, hnone]
        exact .line indent
      rwa [List.append_nil] at hnotes
    · exact hvisible.elim
  | cons item rest ih =>
    cases item with
    | word text remarks =>
      obtain ⟨hdeclared, hrest⟩ := h
      have hfirst : Gap (u.declared && startsStatement (texts (.word text remarks :: rest)).head?)
          gap := by
        rcases hgap with ⟨rfl, rfl⟩ | ⟨-, hgap⟩
        · rw [hdeclared]
          exact .none
        · exact hgap
      have htake : ∀ t, u.take t = s.take t := by
        intro t
        rw [← Scope.take_pass, hscope, Scope.take_pass]
      rcases unsign_cases text with hplain | ⟨number, -, hsigned⟩
      · rw [Item.split_plain hplain]
        rw [texts, hplain] at hfirst
        rw [Scope.read_plain hplain] at hrest
        refine ⟨hfirst, ?_⟩
        rw [htake]
        exact ih hrest hapart.2 rfl (.inl ⟨rfl, rfl⟩)
      · rw [Item.split_signed hsigned]
        rw [texts, hsigned] at hfirst
        rw [Scope.read_signed hsigned] at hrest
        refine ⟨hfirst, ?_, ?_⟩
        · rw [Scope.declared_take (by decide)]
          exact .none
        · rw [htake]
          exact ih hrest hapart.2 rfl (.inl ⟨rfl, rfl⟩)
    | omitted remarks =>
      rcases hgap with hnone | ⟨hvisible, -⟩
      · exact ih h hapart hscope (.inl hnone)
      · exact hvisible.elim
    | space =>
      rcases hgap with ⟨rfl, rfl⟩ | ⟨hvisible, -⟩
      · obtain ⟨hdeclared, hrest⟩ := h
        refine ih (s := u.pass) hrest hapart.2 rfl (.inr ⟨hapart.1, ?_⟩)
        rw [hdeclared]
        exact .space
      · exact hvisible.elim
    | line indent noteIndent blank =>
      rcases hgap with ⟨rfl, rfl⟩ | ⟨hvisible, -⟩
      · exact spaced_line h.1 fun v gap hv hgap =>
          ih h.2 hapart.2 hv (.inr ⟨hapart.1, hgap indent.toNat⟩)
      · exact hvisible.elim

/-! ## 3. Tokens -/

/-- White space before a token that can be seen. -/
theorem spaced_gapSegment {t : Token} {tokens : List Token} (hkind : t.kind ≠ .whitespace)
    (hgap : Gap (leavesBlank u (t :: tokens)) gap) (h : LuaLayout.Spaced (u.after t) tokens) :
    LuaLayout.Spaced u ((gapSegment gap).map (Segment.spelled version) ++ t :: tokens) := by
  have hnone : gapText (t :: tokens) = [] := if_neg hkind
  rw [map_gapSegment]
  split
  · next hempty =>
    refine ⟨?_, h⟩
    rwa [hnone, ← hempty]
  · have htext : gapText (⟨.whitespace, String.ofList gap, Position.start⟩ :: t :: tokens) = gap :=
      String.toList_ofList
    rw [List.singleton_append]
    refine ⟨?_, ?_, h⟩
    · rwa [htext]
    · rw [hnone]
      exact .none

/-- The tokens of a page are spaced as its pieces are. -/
theorem spaced_segments {pieces : List Piece} (hseparate : Separate pieces)
    (hwords : ∀ t, .text t ∈ pieces → IsCode version t) (h : Spaced version u gap pieces) :
    LuaLayout.Spaced u ((segments gap pieces).map (Segment.spelled version)) := by
  induction pieces generalizing u gap with
  | nil =>
    obtain rfl : gap = [] := h
    have hline : (segments [] []).map (Segment.spelled version) =
        [⟨.whitespace, String.ofList ['\n'], Position.start⟩] := rfl
    have hnone : leavesBlank u [⟨.whitespace, String.ofList ['\n'], Position.start⟩] = false :=
      Bool.and_false _
    have htext : gapText [⟨.whitespace, String.ofList ['\n'], Position.start⟩] = ['\n'] :=
      String.toList_ofList
    refine ⟨?_, trivial⟩
    rw [← List.map_cons, ← segments, hline, hnone, htext]
    exact .line 0
  | cons piece rest ih =>
    have hrest : ∀ t, .text t ∈ rest → IsCode version t :=
      fun t ht => hwords t (List.mem_cons_of_mem _ ht)
    cases piece with
    | text t =>
      obtain ⟨hspace, hcomment⟩ := (hwords t (by simp)).kind_ne
      have hafter : u.after (spell version t) = u.take (spell version t) :=
        if_neg (by simp [hspace, hcomment])
      have hlater := ih hseparate.2 hrest h.2
      simp only [segments, List.map_append, List.map_cons, Segment.spelled_rawKind]
      refine spaced_gapSegment hspace ?_ (hafter ▸ hlater)
      rw [leavesBlank, programTexts, if_neg (by simp [hspace, hcomment])]
      exact h.1
    | comment t =>
      have hcomment : (spell version t).kind = .comment := spell_remark hseparate.1
      have hafter : u.after (spell version t) = u.pass := if_pos (.inl hcomment)
      have hlater := ih hseparate.2.2 hrest h.2
      obtain ⟨-, hprogram, -⟩ := of_segments hseparate.2.2 hrest []
      simp only [segments, List.map_append, List.map_cons, Segment.spelled_rawKind]
      refine spaced_gapSegment (by simp [hcomment]) ?_ (hafter ▸ hlater)
      rw [leavesBlank, programTexts, if_pos (.inl hcomment), hprogram]
      exact h.1
    | space => exact ih hseparate hrest h
    | lineStart indent => exact ih hseparate hrest h
    | blank => exact ih hseparate hrest h

/-! ## 4. How pages end -/

/-- Something that can be seen comes last on a page, and ends with no line end. -/
theorem getLast?_chars_ne {pieces : List Piece} (hseparate : Separate pieces)
    (h : Spaced version u gap pieces) : (gap ++ pieces.flatMap chars).getLast? ≠ some '\n' := by
  have hseen : ∀ {gap word rest : List Char} {kind : TokenKind}, IsLexeme kind word → word ≠ [] →
      kind ≠ .whitespace ∧ kind ≠ .invalid → rest.getLast? ≠ some '\n' →
      (gap ++ (word ++ rest)).getLast? ≠ some '\n' := by
    intro gap word rest kind hlex hne hkind hlast
    have hword := hlex.getLast?_ne hkind
    obtain ⟨c, hc⟩ := Option.isSome_iff_exists.1 (List.getLast?_isSome.2 hne)
    rw [List.getLast?_append, List.getLast?_append]
    cases hrest : rest.getLast? with
    | none =>
      rw [hc] at hword ⊢
      exact hword
    | some d =>
      rw [hrest] at hlast
      exact hlast
  induction pieces generalizing u gap with
  | nil =>
    obtain rfl : gap = [] := h
    simp
  | cons piece rest ih =>
    rw [List.flatMap_cons]
    cases piece with
    | text t =>
      obtain ⟨⟨kind, hcode, hlex, -⟩, hrest⟩ := hseparate
      obtain ⟨d, tail, hd, -⟩ := code_starts hcode hlex
      have hlast := ih hrest h.2
      exact hseen hlex (by simp [chars, hd]) (TokenKind.isCode_visible hcode) hlast
    | comment t =>
      obtain ⟨hremark, -, hrest⟩ := hseparate
      obtain ⟨hkind, hlex, -⟩ := isRemark_rawKind hremark
      obtain ⟨tail, hd⟩ := remark_starts hremark
      have hlast := ih hrest h.2
      exact hseen hlex (by simp [chars, hd]) (TokenKind.isRemark_visible hkind) hlast
    | space =>
      rw [← List.append_assoc]
      exact ih hseparate h
    | lineStart indent =>
      rw [← List.append_assoc]
      exact ih hseparate h
    | blank =>
      rw [← List.append_assoc]
      exact ih hseparate h

end

end Piece

/-! ## 5. The output -/

section

variable {version : Version} {source text : String} {raw : List Token} {tree : Block}

namespace Reads

theorem blanks (h : Reads version source raw tree) :
    Blanks version .start (tree.layout false 0) := by
  have hlevel : Level 0 0 := ⟨Int.le_refl _, rfl⟩
  have hall : Blanks version .start (tree.layout false 0 ++ []) :=
    Block.walk (Blanks.walks version) tree h.fits h.genuine hlevel fun _ => trivial
  rwa [List.append_nil] at hall

/-- What is printed begins with something that can be seen, and is spaced. -/
theorem printed_spaced (h : Reads version source raw tree) {pieces : List Piece}
    (hpieces : piecesOf version raw tree = .lineStart 0 :: pieces) :
    Piece.Spaced version .start [] pieces ∧
      ∃ c rest, pieces.flatMap Piece.chars = c :: rest ∧ Text.isBlank c = false := by
  have hall : Piece.Spaced version .start [] (piecesOf version raw tree) :=
    Piece.spaced_laid h.blanks h.apart rfl (.inl ⟨rfl, rfl⟩)
  have hseparate := h.separate
  have hbegins := laid_begins (leadOf version raw) (begins_split h.begins)
  rw [← piecesOf, hpieces] at hbegins
  rw [hpieces] at hall hseparate
  rcases hbegins with hnone | ⟨text, rest, hcons | hcons⟩
  · cases hnone
  · obtain rfl : pieces = .text text :: rest := (List.cons.inj hcons).2
    obtain ⟨d, tail, hd, hblank⟩ := Piece.plain_starts hseparate.1
    exact ⟨⟨.none, hall.2⟩, d, _, by rw [List.flatMap_cons, Piece.chars, hd]; rfl, hblank⟩
  · obtain rfl : pieces = .comment text :: rest := (List.cons.inj hcons).2
    obtain ⟨tail, hd⟩ := Piece.remark_starts hseparate.1
    exact ⟨⟨.none, hall.2⟩, '-', _, by rw [List.flatMap_cons, Piece.chars, hd]; rfl, by decide⟩

end Reads

/-- White space is cut off as such. -/
theorem kind_of_final_whitespace {t : Token} (hlex : IsLexeme t.kind t.text.toList)
    (haccepts : accepts version t.kind t.text = true)
    (hkind : (t.final version).kind = .whitespace) : t.kind = .whitespace := by
  rcases lexical_cases hlex haccepts with ⟨-, hspace, -⟩ | ⟨-, hcomment⟩ | ⟨hwhite, -⟩
  · exact absurd hkind hspace
  · rw [Token.final, hcomment] at hkind
    cases hkind
  · exact hwhite

namespace Reads

/-- Every piece of white space of the output is there, and is a gap. -/
theorem written_spaced (h : Reads version source raw tree) :
    ∃ written, classified version (printed version raw tree) = .ok written ∧
      Spaced .start written ∧ ∀ t ∈ written, t.kind = .whitespace → t.text.toList ≠ [] := by
  obtain ⟨segments, htokens, hsegments⟩ := h.output_segments
  rcases hsegments with ⟨-, rfl⟩ | ⟨pieces, hpieces, hseparate, hwords, rfl⟩
  · exact ⟨[], classified_of_tokens htokens (by simp [Segment.place]), trivial, by simp⟩
  · have haccepted := accepts_place (@Piece.accepts_segments _ _ [] hseparate hwords) Position.start
    have hbare : ((Segment.place Position.start (Piece.segments [] pieces)).map
        (Token.final version)).map Token.bare =
        (Piece.segments [] pieces).map (Segment.spelled version) := by
      rw [List.map_map]
      exact Piece.map_final_place _ _
    refine ⟨_, classified_of_tokens htokens haccepted, ?_, fun t ht hkind => ?_⟩
    · rw [← spaced_bare, hbare]
      exact Piece.spaced_segments hseparate hwords (h.printed_spaced hpieces).1
    · obtain ⟨u, hu, rfl⟩ := List.mem_map.1 ht
      have hlex := isLexeme_of_tokenize htokens u hu
      have hwhite := kind_of_final_whitespace hlex (haccepted u hu) hkind
      rw [hwhite] at hlex
      exact hlex.1

/-- Something visible comes first in the output, and one line end last. -/
theorem printed_ends (h : Reads version source raw tree) (hne : printed version raw tree ≠ "") :
    (∃ c rest, (printed version raw tree).toList = c :: rest ∧ Text.isBlank c = false) ∧
      ∃ front c, (printed version raw tree).toList = front ++ [c, '\n'] ∧ c ≠ '\n' := by
  rcases h.printed_cases with ⟨-, hprinted⟩ | ⟨pieces, hpieces, hprinted⟩
  · exact absurd hprinted hne
  obtain ⟨hspaced, c, rest, hchars, hblank⟩ := h.printed_spaced hpieces
  have hseparate : Piece.Separate pieces := by
    have hall := h.separate
    rwa [hpieces] at hall
  have hlast : (pieces.flatMap Piece.chars).getLast? ≠ some '\n' :=
    Piece.getLast?_chars_ne hseparate hspaced
  have htext : (printed version raw tree).toList = pieces.flatMap Piece.chars ++ ['\n'] := by
    rw [hprinted, String.toList_ofList, Piece.closed]
  rw [htext]
  refine ⟨⟨c, rest ++ ['\n'], by rw [hchars, List.cons_append], hblank⟩, ?_⟩
  rcases List.eq_nil_or_concat (pieces.flatMap Piece.chars) with hnil | ⟨front, d, hconcat⟩
  · rw [hnil] at hchars
    cases hchars
  · rw [List.concat_eq_append] at hconcat
    rw [hconcat, List.getLast?_concat] at hlast
    exact ⟨front, d, by rw [hconcat, List.append_assoc]; rfl, fun hd => hlast (by rw [hd])⟩

end Reads

/-- Two line ends begin tokens where their white space leaves a line blank. -/
theorem exists_isLines_two_iff {tokens : List Token} :
    (∃ t ∈ tokens.head?, t.IsLines 2) ↔
      ∃ indent, gapText tokens = '\n' :: '\n' :: List.replicate indent ' ' := by
  cases tokens with
  | nil => simp [gapText]
  | cons t rest =>
    by_cases hkind : t.kind = .whitespace
    · simp [gapText, Token.IsLines, hkind, List.replicate_succ]
    · simp [gapText, Token.IsLines, hkind]

/-- The white space of a formatted program: single spaces, and line ends with
indentation, of which there are two exactly after the `end` of a declared function
that another statement follows, be it after comments. Nothing blank stands before
the first token, and one line end after the last one. -/
theorem spacing_format (h : format version source = .ok text) (hne : text ≠ "") :
    (∃ c rest, text.toList = c :: rest ∧ Text.isBlank c = false) ∧
      (∃ front c, text.toList = front ++ [c, '\n'] ∧ c ≠ '\n') ∧
      ∃ written, classified version text = .ok written ∧
        (∀ t ∈ written, t.kind = .whitespace → t.text = " " ∨ t.IsLines 1 ∨ t.IsLines 2) ∧
        ∀ before t after, written = before ++ t :: after →
          ((∃ gap ∈ after.head?, gap.IsLines 2) ↔
            t.isKeyword "end" = true ∧ (Scope.ofTokens before).named.head? = some true ∧
              startsStatement (programTexts after).head? = true) := by
  obtain ⟨raw, tree, hreads, rfl⟩ := format_eq_ok_iff.1 h
  obtain ⟨hfirst, hlast⟩ := hreads.printed_ends hne
  obtain ⟨written, hwritten, hspaced, hseen⟩ := hreads.written_spaced
  refine ⟨hfirst, hlast, written, hwritten, fun t ht hkind => ?_, fun before t after hsplit => ?_⟩
  · obtain ⟨before, after, hsplit⟩ := List.append_of_mem ht
    rw [hsplit] at hspaced
    have hgap := hspaced.gap
    rw [gapText, if_pos hkind] at hgap
    generalize leavesBlank _ _ = blank, htext : t.text.toList = chars at hgap
    cases hgap with
    | none => exact absurd htext (hseen t ht hkind)
    | space => exact .inl (String.toList_inj.1 htext)
    | line indent => exact .inr (.inl ⟨hkind, indent, htext⟩)
    | blank indent => exact .inr (.inr ⟨hkind, indent, htext⟩)
  · rw [hsplit, List.append_cons] at hspaced
    have hgap := hspaced.gap.eq_true_iff
    rw [exists_isLines_two_iff, ← hgap, leavesBlank, List.foldl_append, List.foldl_cons,
      List.foldl_nil, Scope.declared_after, ← Scope.ofTokens]
    simp only [Bool.and_eq_true, beq_iff_eq, and_assoc]

/-- A blank line after the first function, before the comment, but none after the
one without a name or after the last one. -/
theorem spacing_format_functions :
    format 1 "function f() g = function() end end --a\nlocal function h() end" =
        .ok "function f()\n    g = function()\n    end\nend\n\n--a\nlocal function h()\nend\n" ∧
      "function f()\n    g = function()\n    end\nend\n\n--a\nlocal function h()\nend\n" ≠ "" ∧
      (∃ c rest, "function f()\n    g = function()\n    end\nend\n\n--a\nlocal function h()\nend\n".toList =
        c :: rest ∧ Text.isBlank c = false) ∧
      (∃ front c, "function f()\n    g = function()\n    end\nend\n\n--a\nlocal function h()\nend\n".toList =
        front ++ [c, '\n'] ∧ c ≠ '\n') ∧
      ∃ written, classified 1
          "function f()\n    g = function()\n    end\nend\n\n--a\nlocal function h()\nend\n" = .ok written ∧
        (∀ t ∈ written, t.kind = .whitespace → t.text = " " ∨ t.IsLines 1 ∨ t.IsLines 2) ∧
        ∀ before t after, written = before ++ t :: after →
          ((∃ gap ∈ after.head?, gap.IsLines 2) ↔
            t.isKeyword "end" = true ∧ (Scope.ofTokens before).named.head? = some true ∧
              startsStatement (programTexts after).head? = true) := by
  have h : format 1 "function f() g = function() end end --a\nlocal function h() end" =
      .ok "function f()\n    g = function()\n    end\nend\n\n--a\nlocal function h()\nend\n" := by
    decide +kernel
  exact ⟨h, by decide, spacing_format h (by decide)⟩

end

end LuaLayout
