/-
LuaLayout.Proofs.Format.Uncommented — comments do not influence the code.

A program and the same program without its comments have the same lexemes, though
a comment may keep a minus from its number. Both read as trees or neither does,
and the trees look the same. So the one page is the other with its comments taken
out, each with the line that it stands on.
-/
import Mathlib.Data.List.DropRight
import LuaLayout.Proofs.Format.Comments
import LuaLayout.Proofs.Layout.Reread

namespace LuaLayout

open Page
open Item (flat split slots)

/-! ## 1. Deleting comments -/

/-- The characters without a line end at the front, if that is to go. -/
def dropLineEnd : Bool → List Char → List Char
  | true, '\n' :: rest => rest
  | _, chars => chars

/-- The characters up to the last line end. -/
def dropIndentation (chars : List Char) : List Char := chars.rdropWhile (· != '\n')

/-- The text of tokens without the comments among them. A comment goes with the
indentation before it and the line end after it; `after` says whether one has
just gone. -/
def uncommented : Bool → List Token → List Char
  | _, [] => []
  | after, t :: rest =>
    if t.kind = .comment then uncommented true rest
    else if t.kind = .whitespace then
      let chars := dropLineEnd after t.text.toList
      (if rest.head?.any Leaf.isComment then dropIndentation chars else chars) ++
        uncommented false rest
    else t.text.toList ++ uncommented false rest

theorem uncommented_bare (after : Bool) (tokens : List Token) :
    uncommented after (tokens.map Token.bare) = uncommented after tokens := by
  induction tokens generalizing after with
  | nil => rfl
  | cons t rest ih =>
    have hhead : (rest.map Token.bare).head?.any Leaf.isComment =
        rest.head?.any Leaf.isComment := by
      cases rest <;> rfl
    simp only [List.map_cons, uncommented, ih, hhead, Token.bare_kind, Token.bare_text]

theorem dropLineEnd_false (chars : List Char) : dropLineEnd false chars = chars := by
  rw [dropLineEnd]
  exact nofun

theorem dropLineEnd_append {after : Bool} {chars rest : List Char}
    (h : chars = [] → rest.head? ≠ some '\n') :
    dropLineEnd after (chars ++ rest) = dropLineEnd after chars ++ rest := by
  cases after with
  | false => simp only [dropLineEnd_false]
  | true =>
    cases chars with
    | nil =>
      cases rest with
      | nil => rfl
      | cons d rest =>
        have hd : d ≠ '\n' := fun heq => h rfl (by rw [heq]; rfl)
        rw [List.nil_append, dropLineEnd]
        · rfl
        · rintro more - heq
          exact hd (List.cons.inj heq).1
    | cons d chars =>
      by_cases hd : d = '\n'
      · subst hd
        rfl
      · rw [List.cons_append, dropLineEnd, dropLineEnd, List.cons_append]
        all_goals
          rintro more - heq
          exact hd (List.cons.inj heq).1

theorem dropIndentation_line (chars : List Char) (n : Nat) :
    dropIndentation (chars ++ '\n' :: List.replicate n ' ') = chars ++ ['\n'] := by
  induction n with
  | zero => simp [dropIndentation]
  | succ n ih =>
    rw [List.replicate_succ', ← List.cons_append, ← List.append_assoc]
    rw [dropIndentation, List.rdropWhile_concat_pos _ _ _ (by decide)]
    exact ih

theorem dropIndentation_replicate (n : Nat) : dropIndentation (List.replicate n ' ') = [] := by
  rw [dropIndentation, List.rdropWhile_eq_nil_iff]
  intro x hx
  rw [List.eq_of_mem_replicate hx]
  rfl

/-! ## 2. Pieces without comments -/

namespace Piece

/-- The pieces without comments and the line starts before them. -/
def bared : List Piece → List Piece
  | [] => []
  | .lineStart _ :: .comment _ :: rest => bared rest
  | piece :: rest => piece :: bared rest

theorem bared_cons {piece : Piece} {rest : List Piece}
    (h : (∃ indent, piece = .lineStart indent) → ∀ note more, rest ≠ .comment note :: more) :
    bared (piece :: rest) = piece :: bared rest := by
  rw [bared]
  rintro indent note more rfl rfl
  exact h ⟨_, rfl⟩ _ _ rfl

end Piece

theorem bared_notePieces {notes : List String} {indent : Int} {rest : List Piece} :
    Piece.bared (notePieces indent notes ++ rest) = Piece.bared rest := by
  induction notes with
  | nil => rfl
  | cons note notes ih => exact ih

theorem laid_ne_comment {notes : List String} {items : List Item} (note : String) (more : List Piece) :
    laid notes items ≠ .comment note :: more := by
  induction items generalizing notes with
  | nil => cases notes <;> nofun
  | cons item rest ih =>
    cases item with
    | word text remarks => nofun
    | omitted remarks => exact ih
    | space => nofun
    | line indent noteIndent blank =>
      cases blank
      · cases notes <;> nofun
      · nofun

/-- Without comments, a page is what its items look like. -/
theorem bared_laid (notes : List String) (items : List Item) :
    Piece.bared (laid notes (split items)) = laid [] (flat items) := by
  induction items generalizing notes with
  | nil =>
    have hall := @bared_notePieces notes 0 []
    rwa [List.append_nil] at hall
  | cons item rest ih =>
    have hcons : ∀ (piece : Piece) (notes : List String) (items : List Item),
        Piece.bared (piece :: laid notes items) = piece :: Piece.bared (laid notes items) :=
      fun piece notes items => Piece.bared_cons fun _ => laid_ne_comment
    cases item with
    | word text remarks =>
      rcases unsign_cases text with hplain | ⟨number, -, hsigned⟩
      · simp [Item.split_plain hplain, flat, hplain, laid, hcons, ih]
      · rw [Item.split_signed hsigned]
        simp only [laid, List.append_nil]
        rw [Piece.bared_cons (by rintro ⟨-, ⟨⟩⟩), hcons, ih]
        simp [flat, hsigned, laid]
    | omitted remarks => exact ih _
    | space => simp [split, flat, laid, hcons, ih]
    | line indent noteIndent blank =>
      have hline : Piece.bared (notePieces noteIndent notes ++ .lineStart indent ::
          laid [] (split rest)) = .lineStart indent :: laid [] (flat rest) := by
        rw [bared_notePieces, hcons, ih]
      cases blank with
      | false => exact hline
      | true =>
        have hblank : Piece.bared (.blank :: (notePieces noteIndent notes ++ .lineStart indent ::
            laid [] (split rest))) = .blank :: Piece.bared (notePieces noteIndent notes ++
              .lineStart indent :: laid [] (split rest)) := Piece.bared_cons (by rintro ⟨-, ⟨⟩⟩)
        exact hblank.trans (congrArg _ hline)

/-- Where there are no comments, nothing is taken out. -/
theorem Piece.bared_of_no_note {pieces : List Piece} (h : pieces.filterMap Piece.note? = []) :
    Piece.bared pieces = pieces := by
  induction pieces with
  | nil => rfl
  | cons piece rest ih =>
    have hrest : rest.filterMap Piece.note? = [] := by
      rw [List.filterMap_eq_nil_iff] at h ⊢
      exact fun p hp => h p (List.mem_cons_of_mem _ hp)
    rw [Piece.bared_cons, ih hrest]
    rintro - note more rfl
    cases hrest

/-! ## 3. Pages without comments -/

namespace Piece

section

variable {version : Version} {pieces : List Piece}

theorem bared_opening (h : NotesLined false pieces) (hopening : opening pieces = '\n')
    (hseparate : Separate pieces) : ∃ rest, closed (bared pieces) = '\n' :: rest := by
  fun_induction bared pieces with
  | case1 => exact ⟨[], rfl⟩
  | case2 indent note rest ih => exact ih h.2 hseparate.2.1 hseparate.2.2
  | case3 piece rest hpair ih =>
    rw [closed_cons]
    cases piece with
    | text t =>
      obtain ⟨d, tail, hd, hblank⟩ := plain_starts hseparate.1
      obtain rfl : d = '\n' := by simpa [opening, hd] using hopening
      exact absurd hblank (by decide)
    | comment t => exact absurd h.1 (by decide)
    | space => exact absurd (show ' ' = '\n' from hopening) (by decide)
    | lineStart indent => exact ⟨_, rfl⟩
    | blank => exact ⟨_, rfl⟩

theorem notesLined_false (h : NotesLined true pieces)
    (hnote : ∀ note more, pieces ≠ .comment note :: more) : NotesLined false pieces := by
  cases pieces with
  | nil => trivial
  | cons piece rest =>
    cases piece with
    | comment t => exact absurd rfl (hnote t rest)
    | text t => exact h
    | space => exact h
    | lineStart indent => exact h
    | blank => exact h

/-- White space goes in part, after a comment and before one. -/
theorem uncommented_gap (after : Bool) (gap : List Char) (tokens : List Token) :
    uncommented after ((gapSegment gap).map (Segment.spelled version) ++ tokens) =
      (if tokens.head?.any Leaf.isComment then dropIndentation (dropLineEnd after gap)
        else dropLineEnd after gap) ++ uncommented (if gap = [] then after else false) tokens := by
  by_cases hempty : gap = []
  · have hdrop : dropLineEnd after [] = [] := by cases after <;> rfl
    simp [gapSegment, hempty, hdrop, dropIndentation]
  · simp [map_gapSegment, hempty, uncommented]

/-- Comments taken out of the tokens of a page are taken out of the page. -/
theorem uncommented_segments {after : Bool} {gap : List Char} (h : Separate pieces)
    (hwords : ∀ t, .text t ∈ pieces → IsCode version t) (hnotes : NotesLined false pieces) :
    uncommented after ((segments gap pieces).map (Segment.spelled version)) =
      dropLineEnd after (gap ++ closed (bared pieces)) := by
  induction pieces using bared.induct generalizing after gap with
  | case1 =>
    have hspace : (segments gap []).map (Segment.spelled version) =
        [⟨.whitespace, String.ofList (gap ++ ['\n']), Position.start⟩] := rfl
    simp [hspace, uncommented, bared, closed]
  | case2 indent note rest ih =>
    have hcomment : (spell version note).kind = .comment := spell_remark h.1
    obtain ⟨r, hr⟩ := bared_opening hnotes.2 h.2.1 h.2.2
    have hlater := @ih true [] h.2.2
      (fun t ht => hwords t (List.mem_cons_of_mem _ (List.mem_cons_of_mem _ ht))) hnotes.2
    rw [List.nil_append, hr] at hlater
    simp only [segments, List.map_append, List.map_cons, Segment.spelled_rawKind, uncommented_gap,
      List.head?_cons, Option.any_some, Leaf.isComment, hcomment, beq_self_eq_true, if_true,
      uncommented, hlater, bared, hr]
    by_cases hempty : gap = []
    · subst hempty
      cases after with
      | true => exact congrArg (· ++ r) (dropIndentation_replicate _)
      | false =>
        simpa [chars, dropLineEnd_false, dropLineEnd] using
          congrArg (· ++ r) (dropIndentation_line [] indent.toNat)
    · rw [dropLineEnd_append fun hnil => absurd hnil hempty,
        dropLineEnd_append fun hnil => absurd hnil hempty, chars, dropIndentation_line]
      simp [dropLineEnd]
  | case3 piece rest hpair ih =>
    have hrest : ∀ t, .text t ∈ rest → IsCode version t :=
      fun t ht => hwords t (List.mem_cons_of_mem _ ht)
    have hbared : bared (piece :: rest) = piece :: bared rest := by
      rw [bared]
      exact hpair
    rw [hbared, closed_cons, ← List.append_assoc]
    cases piece with
    | text t =>
      obtain ⟨hspace, hcomment⟩ := (hwords t (by simp)).kind_ne
      obtain ⟨d, tail, hd, hblank⟩ := plain_starts h.1
      have hlater := @ih false [] h.2 hrest hnotes
      rw [dropLineEnd_false, List.nil_append] at hlater
      have hline : gap = [] → (t.toList ++ closed (bared rest)).head? ≠ some '\n' := by
        rintro -
        rw [hd]
        rintro ⟨⟩
        exact absurd hblank (by decide)
      simp only [segments, List.map_append, List.map_cons, Segment.spelled_rawKind, uncommented_gap,
        List.head?_cons, Option.any_some, Leaf.isComment, uncommented, hspace, hcomment, hlater,
        if_false, chars, spell_text, List.append_assoc, dropLineEnd_append hline, beq_iff_eq]
    | comment t => exact absurd hnotes.1 (by decide)
    | space => exact ih h hrest hnotes
    | lineStart indent =>
      exact ih h hrest (notesLined_false hnotes fun note more => hpair indent note more rfl)
    | blank => exact ih h hrest hnotes

end

end Piece

/-! ## 4. Trees without comments -/

theorem map_fst_splitWord (text : String) (remarks : List String) :
    (splitWord text remarks).map Prod.fst = unsign text := by
  rcases unsign_cases text with h | ⟨number, -, h⟩
  · rw [splitWord_of_plain h, h]
    rfl
  · rw [splitWord_of_signed h, h]
    rfl

/-- Items without comments are laid as they look. -/
theorem laid_flat {items : List Item} (h : ∀ s ∈ slots items, s.2 = []) :
    laid [] (split items) = laid [] (flat items) := by
  have hnone : ∀ s ∈ slots (split items), s.2 = [] := by
    rw [slots_split]
    intro p hp
    obtain ⟨⟨word, remarks⟩, hs, hp⟩ := List.mem_flatMap.1 hp
    obtain rfl : remarks = [] := h _ hs
    cases word with
    | none =>
      rw [List.mem_singleton.1 hp]
    | some text =>
      obtain ⟨w, hw, rfl⟩ := List.mem_map.1 hp
      rcases unsign_cases text with hplain | ⟨number, -, hsigned⟩
      · rw [splitWord_of_plain hplain, List.mem_singleton] at hw
        rw [hw]
      · rw [splitWord_of_signed hsigned] at hw
        rcases List.mem_pair.1 hw with rfl | rfl <;> rfl
  have hnotes : (laid [] (split items)).filterMap Piece.note? = [] := by
    rw [filterMap_note_laid, List.nil_append, List.flatMap_eq_nil_iff]
    exact hnone
  rw [← bared_laid [] items, Piece.bared_of_no_note hnotes]

section

variable {version : Version} {tokens more : List Token} {tree : Block}

/-- Tokens with the same texts, comments aside, read as trees that look the same. -/
theorem Block.Fits.reread_tokens (h : tree.Fits none) (hlex : ∀ u ∈ tokens, u.Lexical version)
    (hmore : ∀ u ∈ more, u.Lexical version)
    (hleaves : (Leaf.ofTokens (joinSigns true tokens)).2 = tree.leaves)
    (htexts : (Leaf.ofTokens more).2.map (·.token.text) =
      (Leaf.ofTokens tokens).2.map (·.token.text)) :
    ∃ tree' : Block, (Leaf.ofTokens (joinSigns true more)).2 = tree'.leaves ∧ tree'.Fits none ∧
      flat (tree'.layout false 0) = flat (tree.layout false 0) := by
  have hg : AllGenuine version tree.leaves := hleaves ▸ (@spelled_joinSigns _ true _ hlex).genuine
  have hworded : worded false tree.leaves (tree.layout false 0) =
      (Leaf.ofTokens more).2.map (·.token.text) := by
    have hlexemes := congrArg (List.map Prod.fst) (@ofTokens_joinSigns _ true _ hlex).2
    rw [hleaves, List.map_flatMap, List.map_map] at hlexemes
    simp only [map_fst_splitWord] at hlexemes
    rw [htexts]
    exact hlexemes
  have hspelled := @spelled_joinSigns _ true _ hmore
  rw [← hworded] at hspelled
  exact Block.reread_program h hg hspelled

/-- Code tokens make leaves without comments, the same as among comments. -/
theorem ofTokens_filter (tokens : List Token) :
    (Leaf.ofTokens (tokens.filter (!Leaf.isComment ·))).2.map (·.token.text) =
      (Leaf.ofTokens tokens).2.map (·.token.text) := by
  have htokens : (Leaf.ofTokens (tokens.filter (!Leaf.isComment ·))).2.map (·.token) =
      (Leaf.ofTokens tokens).2.map (·.token) := by
    rw [Leaf.map_token_ofTokens, Leaf.map_token_ofTokens, List.filter_filter]
    simp
  have htexts := congrArg (List.map Token.text) htokens
  rwa [List.map_map, List.map_map] at htexts

/-- Joined tokens without comments make leaves without comments. -/
theorem ofTokens_of_no_comment (h : ∀ u ∈ tokens, Leaf.isComment u = false) :
    (Leaf.ofTokens tokens).1 = [] ∧ ∀ l ∈ (Leaf.ofTokens tokens).2, l.comments = [] := by
  constructor
  · refine List.eq_nil_iff_forall_not_mem.2 fun c hc => ?_
    obtain ⟨hmem, hkind⟩ := Leaf.of_mem_lead hc
    exact Leaf.isComment_eq_false_iff.1 (h c hmem) hkind
  · intro l hl
    refine List.eq_nil_iff_forall_not_mem.2 fun c hc => ?_
    obtain ⟨hmem, hkind⟩ := (Leaf.of_mem_leaves hl).2 c hc
    exact Leaf.isComment_eq_false_iff.1 (h c hmem) hkind

theorem joinSigns_no_comment {folds : Bool} (h : ∀ u ∈ tokens, Leaf.isComment u = false) :
    ∀ u ∈ joinSigns folds tokens, Leaf.isComment u = false := by
  intro u hu
  rcases mem_joinSigns hu with hmem | ⟨minus, -, number, -, -, hkind, rfl⟩
  · exact h u hmem
  · exact Leaf.isComment_eq_false_iff.2 (by simp [Token.signed, hkind])

theorem begins_flat {items : List Item} (h : Begins items) : Begins (flat items) := by
  obtain rfl | ⟨text, remarks, rest, rfl⟩ := h
  · exact .inl rfl
  · rcases unsign_cases text with hplain | ⟨number, -, hsigned⟩
    · exact .inr ⟨_, _, _, by rw [flat, flat, hplain]; rfl⟩
    · exact .inr ⟨_, _, _, by rw [flat, flat, hsigned]; rfl⟩

/-- What a program without comments prints is what its layout looks like. -/
theorem endLine_program (h : tree.Fits none) (hg : AllGenuine version tree.leaves)
    (hbare : ∀ l ∈ tree.leaves, l.comments = []) :
    (Session.endLine ((((Page.empty.queueAll []).layAll (tree.layout false 0)).flush 0).text)).toList =
      dropLineEnd true (Piece.closed (laid [] (flat (tree.layout false 0)))) := by
  have hslots : ∀ s ∈ slots (tree.layout false 0), s.2 = [] := by
    intro s hs
    have hmem : s.2 ∈ tree.leaves.map Leaf.remarks := by
      rw [← (h.settles_program hg).remarks]
      exact List.mem_map_of_mem hs
    obtain ⟨l, hl, hremarks⟩ := List.mem_map.1 hmem
    rw [← hremarks, Leaf.remarks, hbare l hl, List.map_nil]
  have hseparate : Piece.Separate (laid [] (flat (tree.layout false 0))) := by
    rw [← laid_flat hslots]
    refine separate_laid (h.apart_program hg) (by simp) fun s hs note hnote => ?_
    rw [hslots s hs] at hnote
    cases hnote
  have hbegins := h.begins_program hg
  rw [text_program [] hbegins, laid_flat hslots]
  generalize hpieces : laid [] (flat (tree.layout false 0)) = pieces at hseparate ⊢
  have hcases := laid_begins [] (begins_flat hbegins)
  rw [hpieces] at hcases
  have hvisible : ∀ piece rest, pieces = .lineStart 0 :: piece :: rest → piece.chars ≠ [] →
      (Session.endLine (String.ofList (pieces.tail.flatMap Piece.chars))).toList =
        dropLineEnd true (Piece.closed pieces) := by
    rintro piece rest rfl hne
    have hchars : (piece :: rest).flatMap Piece.chars ≠ [] := fun hnil =>
      hne (List.append_eq_nil_iff.1 hnil).1
    rw [List.tail_cons, endLine_ofList hchars, String.toList_ofList]
    rfl
  rcases hcases with rfl | ⟨text, rest, rfl | rfl⟩
  · rfl
  · obtain ⟨d, tail, hd, -⟩ := Piece.plain_starts hseparate.1
    exact hvisible _ _ rfl (by simp [Piece.chars, hd])
  · obtain ⟨tail, hd⟩ := Piece.remark_starts hseparate.1
    exact hvisible _ _ rfl (by simp [Piece.chars, hd])

end

/-! ## 5. The output without comments -/

section

variable {version : Version} {source text : String} {raw : List Token} {tree : Block}

/-- The line start that the output leaves out makes no difference. -/
theorem Piece.uncommented_first {pieces : List Piece} {text : String} {rest : List Piece}
    (h : pieces = .text text :: rest ∨ pieces = .comment text :: rest) :
    uncommented true ((segments ['\n'] pieces).map (Segment.spelled version)) =
      uncommented false ((segments [] pieces).map (Segment.spelled version)) := by
  obtain ⟨tokens, htokens⟩ : ∃ tokens, ∀ gap, (segments gap pieces).map (Segment.spelled version) =
      (gapSegment gap).map (Segment.spelled version) ++ tokens := by
    rcases h with rfl | rfl <;> exact ⟨_, fun gap => List.map_append⟩
  rw [htokens, htokens, uncommented_gap, uncommented_gap]
  rfl

/-- Comments taken out of the output leave what the items look like. -/
theorem Reads.uncommented_output (h : Reads version source raw tree) :
    ∃ written, classified version (printed version raw tree) = .ok written ∧
      uncommented false written =
        dropLineEnd true (Piece.closed (laid [] (flat (tree.layout false 0)))) := by
  obtain ⟨segments, htokens, hsegments⟩ := h.output_segments
  have hbared : Piece.bared (piecesOf version raw tree) = laid [] (flat (tree.layout false 0)) :=
    bared_laid _ _
  rw [← hbared]
  rcases hsegments with ⟨hempty, rfl⟩ | ⟨pieces, hpieces, hseparate, hwords, rfl⟩
  · refine ⟨[], classified_of_tokens htokens (by simp [Segment.place]), ?_⟩
    rw [hempty]
    rfl
  · have haccepted := accepts_place (@Piece.accepts_segments _ _ [] hseparate hwords) Position.start
    refine ⟨_, classified_of_tokens htokens haccepted, ?_⟩
    have hlined : Piece.NotesLined false (.lineStart 0 :: pieces) :=
      hpieces ▸ notesLined_laid false _ _
    have hall : ∀ t, .text t ∈ Piece.lineStart 0 :: pieces → IsCode version t :=
      fun t ht => hwords t (by simpa using ht)
    have hfirst : ∃ text rest, pieces = .text text :: rest ∨ pieces = .comment text :: rest := by
      rcases laid_begins (leadOf version raw) (begins_split h.begins) with
        heq | ⟨text, rest, heq | heq⟩
      · cases hpieces.symm.trans heq
      · exact ⟨text, rest, .inl (List.cons.inj (hpieces.symm.trans heq)).2⟩
      · exact ⟨text, rest, .inr (List.cons.inj (hpieces.symm.trans heq)).2⟩
    obtain ⟨text, rest, hfirst⟩ := hfirst
    have hpage := @Piece.uncommented_segments version (.lineStart 0 :: pieces) true [] hseparate hall
      hlined
    rw [← uncommented_bare, List.map_map]
    refine (congrArg (uncommented false) (Piece.map_final_place _ _)).trans ?_
    rw [← Piece.uncommented_first hfirst, hpieces]
    exact hpage

/-- Comments do not influence the code. A source whose tokens are accepted is
formatted exactly where the program without its comments is, and the text of the
latter is that of the former with every comment deleted, along with the
indentation before it and the line end after it. -/
theorem uncommented_format {reduction : Reduction} (htokens : tokenize source = .ok raw)
    (hreduce : reduce version .comments raw = .ok reduction) :
    ((∃ text, format version source = .ok text) ↔
        ∃ bare, formatTokens .program reduction.tokens = .ok bare) ∧
      ∀ text bare, format version source = .ok text →
        formatTokens .program reduction.tokens = .ok bare →
        ∃ written, classified version text = .ok written ∧
          bare = String.ofList (uncommented false written) := by
  obtain ⟨haccepted, rfl⟩ := reduce_comments_eq_ok_iff.1 hreduce
  have hlex : ∀ t ∈ keptTokens version raw, t.Lexical version :=
    keptTokens_lexical (isLexeme_of_tokenize htokens) haccepted
  have hcode : ∀ t ∈ (keptTokens version raw).filter (!Leaf.isComment ·), t.Lexical version :=
    fun t ht => hlex t (List.mem_filter.1 ht).1
  have hnone : ∀ t ∈ joinSigns true ((keptTokens version raw).filter (!Leaf.isComment ·)),
      Leaf.isComment t = false :=
    joinSigns_no_comment fun t ht => by simpa using (List.mem_filter.1 ht).2
  have htexts := ofTokens_filter (keptTokens version raw)
  -- what a tree with comments gives for the program without them
  have hbare : ∀ {tree}, Reads version source raw tree → ∃ bare,
      formatTokens .program (joinSigns true ((keptTokens version raw).filter (!Leaf.isComment ·))) =
        .ok bare ∧ bare.toList =
          dropLineEnd true (Piece.closed (laid [] (flat (tree.layout false 0)))) := by
    intro tree h
    obtain ⟨tree', hleaves, hfits, hflat⟩ := h.fits.reread_tokens hlex hcode h.leaves htexts
    refine ⟨_, formatTokens_eq_ok_iff.2 ⟨tree', hleaves, hfits, rfl⟩, ?_⟩
    have hg : AllGenuine version tree'.leaves := hleaves ▸ (@spelled_joinSigns _ true _ hcode).genuine
    obtain ⟨hlead, hcomments⟩ := ofTokens_of_no_comment hnone
    rw [hlead, ← hflat]
    exact endLine_program hfits hg (hleaves ▸ hcomments)
  refine ⟨⟨?_, ?_⟩, ?_⟩
  · rintro ⟨text, htext⟩
    obtain ⟨raw', tree, hreads, -⟩ := format_eq_ok_iff.1 htext
    obtain rfl : raw = raw' := Except.ok.inj (htokens.symm.trans hreads.tokens)
    obtain ⟨bare, hformat, -⟩ := hbare hreads
    exact ⟨bare, hformat⟩
  · rintro ⟨bare, hformat⟩
    obtain ⟨tree', hleaves', hfits', -⟩ := formatTokens_eq_ok_iff.1 hformat
    obtain ⟨tree, hleaves, hfits, -⟩ := hfits'.reread_tokens hcode hlex hleaves' htexts.symm
    exact ⟨_, format_eq_ok_iff.2 ⟨raw, tree, ⟨htokens, haccepted, hleaves, hfits⟩, rfl⟩⟩
  · intro text bare htext hformat
    obtain ⟨raw', tree, hreads, rfl⟩ := format_eq_ok_iff.1 htext
    obtain rfl : raw = raw' := Except.ok.inj (htokens.symm.trans hreads.tokens)
    obtain ⟨bare', hformat', hchars⟩ := hbare hreads
    obtain rfl : bare = bare' := Except.ok.inj (hformat.symm.trans hformat')
    obtain ⟨written, hwritten, hdeleted⟩ := hreads.uncommented_output
    exact ⟨written, hwritten, by rw [hdeleted, ← hchars, String.ofList_toList]⟩

/-- A comment keeps a minus from its number in one of the two programs only. -/
theorem uncommented_format_sign :
    ∃ raw reduction, tokenize "x=- --a\n5" = .ok raw ∧ reduce 1 .comments raw = .ok reduction ∧
      format 1 "x=- --a\n5" = .ok "x = -5\n--a\n" ∧
      formatTokens .program reduction.tokens = .ok "x = -5\n" ∧
      ∃ written, classified 1 "x = -5\n--a\n" = .ok written ∧
        "x = -5\n" = String.ofList (uncommented false written) := by
  have htokens : tokenize "x=- --a\n5" =
      .ok [⟨.name, "x", ⟨1, 1⟩⟩, ⟨.operator, "=", ⟨1, 2⟩⟩, ⟨.operator, "-", ⟨1, 3⟩⟩,
        ⟨.whitespace, " ", ⟨1, 4⟩⟩, ⟨.lineComment, "--a", ⟨1, 5⟩⟩, ⟨.whitespace, "\n", ⟨1, 8⟩⟩,
        ⟨.number, "5", ⟨2, 1⟩⟩] := by decide +kernel
  have hreduce : reduce 1 .comments [⟨.name, "x", ⟨1, 1⟩⟩, ⟨.operator, "=", ⟨1, 2⟩⟩,
        ⟨.operator, "-", ⟨1, 3⟩⟩, ⟨.whitespace, " ", ⟨1, 4⟩⟩, ⟨.lineComment, "--a", ⟨1, 5⟩⟩,
        ⟨.whitespace, "\n", ⟨1, 8⟩⟩, ⟨.number, "5", ⟨2, 1⟩⟩] =
      .ok ⟨[⟨.name, "x", ⟨1, 1⟩⟩, ⟨.operator, "=", ⟨1, 2⟩⟩, ⟨.number, "-5", ⟨1, 3⟩⟩], 1⟩ := by
    decide +kernel
  have hformat : format 1 "x=- --a\n5" = .ok "x = -5\n--a\n" := by decide +kernel
  have hbare : formatTokens .program [⟨.name, "x", ⟨1, 1⟩⟩, ⟨.operator, "=", ⟨1, 2⟩⟩,
      ⟨.number, "-5", ⟨1, 3⟩⟩] = .ok "x = -5\n" := by decide +kernel
  exact ⟨_, _, htokens, hreduce, hformat, hbare,
    (uncommented_format htokens hreduce).2 _ _ hformat hbare⟩

end

end LuaLayout
