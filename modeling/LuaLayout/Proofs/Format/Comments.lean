/-
LuaLayout.Proofs.Format.Comments — where formatting puts comments.

A comment keeps its text and its place in the order of comments. It goes to the
first token that begins a line of the output among those that it stood before in
the source, or to the end. The proof follows the items with the comments that
wait: as long as the next word does not begin a line, a comment that waits for
that word may as well wait for the one after it.
-/
import LuaLayout.Proofs.Format.Printed

namespace LuaLayout

open Page
open Item (Apart split slots)

/-! ## 1. Comments among tokens -/

/-- The tokens of a source with their final kinds, white space and comments among them. -/
def classified (version : Version) (source : String) : Except Fault (List Token) := do
  let tokens ← tokenize source
  return (← reduce version .none tokens).tokens

/-- The texts of the comments. -/
def commentTexts : List Token → List String
  | [] => []
  | t :: rest => if t.kind = .comment then t.text :: commentTexts rest else commentTexts rest

/-- The texts of the tokens that are neither white space nor comments. -/
def programTexts : List Token → List String
  | [] => []
  | t :: rest =>
    if t.kind = .comment ∨ t.kind = .whitespace then programTexts rest
    else t.text :: programTexts rest

/-- For each comment, how many tokens of the program come before it, on top of
the given number. -/
def placesOf : Nat → List Token → List Nat
  | _, [] => []
  | n, t :: rest =>
    if t.kind = .comment then n :: placesOf n rest
    else if t.kind = .whitespace then placesOf n rest
    else placesOf (n + 1) rest

/-- For each token of the program, whether it begins a line: only white space
stands between it and the last line end, or the start of the text. -/
def lineStarts : Bool → List Token → List Bool
  | _, [] => []
  | atStart, t :: rest =>
    if t.kind = .comment then lineStarts false rest
    else if t.kind = .whitespace then
      lineStarts (atStart || t.text.toList.contains '\n') rest
    else atStart :: lineStarts false rest

/-- What stands before a comment: nothing, or a line end and indentation. -/
def EndsInIndentation : Option Token → Prop
  | none => True
  | some t => t.kind = .whitespace ∧
      ∃ above indent, t.text.toList = above ++ '\n' :: List.replicate indent ' '

/-- What stands after a comment: a line end. -/
def BeginsWithLineEnd : Option Token → Prop
  | none => False
  | some t => t.kind = .whitespace ∧ t.text.toList.head? = some '\n'

/-- Every comment stands alone on its lines; `before` is the token before the first one. -/
def StandAlone : Option Token → List Token → Prop
  | _, [] => True
  | before, t :: rest =>
    (t.kind = .comment → EndsInIndentation before ∧ BeginsWithLineEnd rest.head?) ∧
      StandAlone (some t) rest

/-- How many of the first texts are left. -/
def survivors (texts : List String) (n : Nat) : Nat :=
  ((fates [] texts).take n).countP Option.isSome

/-- The first token from a place on that begins a line, or the end. -/
def landing (starts : List Bool) (n : Nat) : Nat := n + (starts.drop n).findIdx id

/-! None of this depends on where the tokens stand. -/

section

variable {tokens : List Token}

theorem commentTexts_bare : commentTexts (tokens.map Token.bare) = commentTexts tokens := by
  induction tokens with
  | nil => rfl
  | cons t rest ih => simp [commentTexts, ih]

theorem programTexts_bare : programTexts (tokens.map Token.bare) = programTexts tokens := by
  induction tokens with
  | nil => rfl
  | cons t rest ih => simp [programTexts, ih]

theorem placesOf_bare (n : Nat) : placesOf n (tokens.map Token.bare) = placesOf n tokens := by
  induction tokens generalizing n with
  | nil => rfl
  | cons t rest ih => simp [placesOf, ih]

theorem lineStarts_bare (atStart : Bool) :
    lineStarts atStart (tokens.map Token.bare) = lineStarts atStart tokens := by
  induction tokens generalizing atStart with
  | nil => rfl
  | cons t rest ih => simp [lineStarts, ih]

theorem standAlone_bare (before : Option Token) :
    StandAlone (before.map Token.bare) (tokens.map Token.bare) ↔ StandAlone before tokens := by
  induction tokens generalizing before with
  | nil => rfl
  | cons t rest ih =>
    have hbefore : EndsInIndentation (before.map Token.bare) ↔ EndsInIndentation before := by
      cases before <;> rfl
    have hafter : BeginsWithLineEnd (rest.map Token.bare).head? ↔ BeginsWithLineEnd rest.head? := by
      cases rest <;> rfl
    have hlater := ih (some t)
    simp only [Option.map_some] at hlater
    simp only [List.map_cons, StandAlone, hbefore, hafter, hlater, Token.bare_kind]

end

/-! ## 2. The source -/

/-- For each comment after some leaves, how many of their tokens come before it. -/
def placesAfter : Nat → List (List String) → List Nat
  | _, [] => []
  | n, remarks :: rest => remarks.map (fun _ => n + 1) ++ placesAfter (n + 1) rest

/-- The same, without the tokens that are left out. -/
def placesKept : Nat → List (Option String × List String) → List Nat
  | _, [] => []
  | n, (some _, remarks) :: rest => remarks.map (fun _ => n + 1) ++ placesKept (n + 1) rest
  | n, (none, remarks) :: rest => remarks.map (fun _ => n) ++ placesKept n rest

section

variable {version : Version} {source text : String} {raw : List Token} {tree : Block}

/-- White space plays no part for comments and program texts. -/
theorem of_keptTokens (version : Version) (raw : List Token) (n : Nat) :
    commentTexts (raw.map (Token.final version)) = commentTexts (keptTokens version raw) ∧
      programTexts (raw.map (Token.final version)) = programTexts (keptTokens version raw) ∧
      placesOf n (raw.map (Token.final version)) = placesOf n (keptTokens version raw) := by
  induction raw generalizing n with
  | nil => exact ⟨rfl, rfl, rfl⟩
  | cons t rest ih =>
    have hkept : keptTokens version (t :: rest) =
        if (t.final version).kind = .whitespace then keptTokens version rest
        else t.final version :: keptTokens version rest := by
      rw [keptTokens, List.map_cons]
      split
      · next hspace => rw [List.filter_cons_of_neg (by simp [Trim.keeps, hspace]), keptTokens]
      · next hspace => rw [List.filter_cons_of_pos (by simp [Trim.keeps, hspace]), keptTokens]
    have htexts := (ih 0).1
    have hprogram := (ih 0).2.1
    have hplaces := fun n => (ih n).2.2
    rw [hkept, List.map_cons]
    by_cases hspace : (t.final version).kind = .whitespace
    · simp [hspace, commentTexts, programTexts, placesOf, htexts, hprogram, hplaces]
    · simp [hspace, commentTexts, programTexts, placesOf, htexts, hprogram, hplaces]

/-- The comments before the first leaf, and those of the leaves. -/
theorem of_ofTokens {tokens : List Token} (hspace : ∀ t ∈ tokens, t.kind ≠ .whitespace) (n : Nat) :
    commentTexts tokens = (Leaf.ofTokens tokens).1.map (·.text) ++
        (Leaf.ofTokens tokens).2.flatMap Leaf.remarks ∧
      programTexts tokens = (Leaf.ofTokens tokens).2.map (·.token.text) ∧
      placesOf n tokens = ((Leaf.ofTokens tokens).1.map (·.text)).map (fun _ => n) ++
        placesAfter n ((Leaf.ofTokens tokens).2.map Leaf.remarks) := by
  induction tokens generalizing n with
  | nil => exact ⟨rfl, rfl, rfl⟩
  | cons t rest ih =>
    obtain ⟨ht, hrest⟩ := List.forall_mem_cons.1 hspace
    rw [Leaf.ofTokens_cons]
    by_cases hcomment : t.kind = .comment
    · obtain ⟨htexts, hprogram, hplaces⟩ := ih hrest n
      simp [Leaf.isComment, hcomment, commentTexts, programTexts, placesOf, htexts, hprogram, hplaces]
    · obtain ⟨htexts, hprogram, hplaces⟩ := ih hrest (n + 1)
      simp [Leaf.isComment, hcomment, ht, commentTexts, programTexts, placesOf, htexts, hprogram,
        hplaces, placesAfter, Leaf.remarks]

/-- Counting only the tokens that are left turns places into places among them. -/
theorem map_survivors {list : List (Option String × List String)} {before : List (Option String)} :
    (placesAfter before.length (list.map Prod.snd)).map
        (fun n => ((before ++ list.map Prod.fst).take n).countP Option.isSome) =
      placesKept (before.countP Option.isSome) list := by
  induction list generalizing before with
  | nil => rfl
  | cons slot rest ih =>
    obtain ⟨fate', remarks⟩ := slot
    have hlater := @ih (before ++ [fate'])
    simp only [List.length_append, List.length_singleton, List.append_assoc, List.singleton_append,
      List.countP_append] at hlater
    have htake : (before ++ fate' :: rest.map Prod.fst).take (before.length + 1) =
        before ++ [fate'] := by
      rw [List.take_append, List.take_of_length_le (Nat.le_succ _), Nat.add_sub_cancel_left]
      rfl
    cases fate' with
    | none =>
      simp only [List.map_cons, placesAfter, List.map_append, List.map_map, hlater, placesKept]
      congr 1
      refine List.map_congr_left fun note _ => ?_
      simp [htake]
    | some word =>
      simp only [List.map_cons, placesAfter, List.map_append, List.map_map, hlater, placesKept]
      congr 1
      refine List.map_congr_left fun note _ => ?_
      simp [htake]

end

/-! ## 3. Items and pieces -/

namespace Item

/-- For each word, whether it begins a line. -/
def wordStarts : Bool → List Item → List Bool
  | _, [] => []
  | atStart, .word _ _ :: rest => atStart :: wordStarts false rest
  | atStart, .omitted _ :: rest => wordStarts atStart rest
  | atStart, .space :: rest => wordStarts atStart rest
  | _, .line _ _ _ :: rest => wordStarts true rest

/-- Every line begins with a word. -/
def LinesBegin : List Item → Prop
  | [] => True
  | .line _ _ _ :: rest => (∃ text remarks more, rest = .word text remarks :: more) ∧ LinesBegin rest
  | .word _ _ :: rest => LinesBegin rest
  | .omitted _ :: rest => LinesBegin rest
  | .space :: rest => LinesBegin rest

theorem linesBegin_split {items : List Item} (h : Apart items) : LinesBegin (split items) := by
  induction items with
  | nil => trivial
  | cons item rest ih =>
    cases item with
    | word text remarks =>
      rcases unsign_cases text with hplain | ⟨number, -, hsigned⟩
      · rw [split_plain hplain]
        exact ih h.2
      · rw [split_signed hsigned]
        exact ih h.2
    | omitted remarks => exact ih h
    | space => exact ih h.2
    | line indent noteIndent blank =>
      refine ⟨?_, ih h.2⟩
      obtain ⟨text, remarks, more, rfl⟩ := h.1.begins
      rcases unsign_cases text with hplain | ⟨number, -, hsigned⟩
      · exact ⟨_, _, _, split_plain hplain remarks more⟩
      · exact ⟨_, _, _, split_signed hsigned remarks more⟩

end Item

namespace Piece

/-- For each comment, how many texts come before it, on top of the given number. -/
def places : Nat → List Piece → List Nat
  | _, [] => []
  | n, .text _ :: rest => places (n + 1) rest
  | n, .comment _ :: rest => n :: places n rest
  | n, .space :: rest => places n rest
  | n, .lineStart _ :: rest => places n rest
  | n, .blank :: rest => places n rest

/-- For each text, whether it begins a line. -/
def textStarts : Bool → List Piece → List Bool
  | _, [] => []
  | atStart, .text _ :: rest => atStart :: textStarts false rest
  | _, .comment _ :: rest => textStarts false rest
  | atStart, .space :: rest => textStarts atStart rest
  | _, .lineStart _ :: rest => textStarts true rest
  | _, .blank :: rest => textStarts true rest

/-- Every comment comes right after a line start, or first where `begun` is false. -/
def NotesLined : Bool → List Piece → Prop
  | _, [] => True
  | lined, .comment _ :: rest => lined = true ∧ NotesLined false rest
  | _, .lineStart _ :: rest => NotesLined true rest
  | _, .text _ :: rest => NotesLined false rest
  | _, .space :: rest => NotesLined false rest
  | _, .blank :: rest => NotesLined false rest

end Piece

section

variable {items : List Item} {notes : List String}

theorem filterMap_note_laid (notes : List String) (items : List Item) :
    (laid notes items).filterMap Piece.note? = notes ++ (slots items).flatMap Prod.snd := by
  induction items generalizing notes with
  | nil => exact (filterMap_note_notePieces 0 notes).trans (List.append_nil notes).symm
  | cons item rest ih =>
    cases item with
    | word text remarks => exact (ih (notes ++ remarks)).trans (List.append_assoc _ _ _)
    | omitted remarks => exact (ih (notes ++ remarks)).trans (List.append_assoc _ _ _)
    | space => exact ih notes
    | line indent noteIndent blank =>
      rw [laid, List.filterMap_append, List.filterMap_append, filterMap_note_notePieces]
      cases blank with
      | true => exact congrArg (notes ++ ·) (ih [])
      | false => exact congrArg (notes ++ ·) (ih [])

theorem textStarts_notePieces (atStart : Bool) (indent : Int) (notes : List String)
    (rest : List Piece) :
    ∃ atStart', Piece.textStarts atStart (notePieces indent notes ++ rest) =
      Piece.textStarts atStart' rest := by
  induction notes generalizing atStart with
  | nil => exact ⟨atStart, rfl⟩
  | cons note more ih => exact ih false

theorem textStarts_laid (atStart : Bool) (notes : List String) (items : List Item) :
    Piece.textStarts atStart (laid notes items) = Item.wordStarts atStart items := by
  induction items generalizing atStart notes with
  | nil =>
    obtain ⟨atStart', h⟩ := textStarts_notePieces atStart 0 notes []
    rw [List.append_nil] at h
    exact h
  | cons item rest ih =>
    cases item with
    | word text remarks => exact congrArg (atStart :: ·) (ih false _)
    | omitted remarks => exact ih atStart _
    | space => exact ih atStart _
    | line indent noteIndent blank =>
      obtain ⟨atStart', h⟩ := textStarts_notePieces (blank || atStart) noteIndent notes
        (.lineStart indent :: laid [] rest)
      refine Eq.trans ?_ (h.trans (ih true []))
      cases blank <;> rfl

theorem landing_of_true {starts more : List Bool} {k : Nat} (h : starts.drop k = true :: more) :
    landing starts k = k := by
  simp [landing, h, List.findIdx_cons]

theorem landing_of_false {starts more : List Bool} {k : Nat} (h : starts.drop k = false :: more) :
    starts.drop (k + 1) = more ∧ landing starts k = landing starts (k + 1) := by
  have hdrop : starts.drop (k + 1) = more := by rw [← List.drop_drop, h]; rfl
  refine ⟨hdrop, ?_⟩
  rw [landing, landing, h, hdrop, List.findIdx_cons]
  simp only [id_eq, cond_false]
  omega

theorem places_notePieces (k : Nat) (indent : Int) (notes : List String) (rest : List Piece) :
    Piece.places k (notePieces indent notes ++ rest) =
      notes.map (fun _ => k) ++ Piece.places k rest := by
  induction notes with
  | nil => rfl
  | cons note more ih => exact congrArg (k :: ·) ih

/-- Comments that wait land at the next word that begins a line. -/
theorem places_laid {starts : List Bool} {k : Nat} {atStart : Bool} {notes : List String}
    {items : List Item} (hlines : Item.LinesBegin items)
    (hstarts : starts.drop k = Item.wordStarts atStart items)
    (hstart : atStart = true → notes = [] ∧ ∃ text remarks more, items = .word text remarks :: more) :
    Piece.places k (laid notes items) =
      (notes.map (fun _ => k) ++ placesKept k (slots items)).map (landing starts) := by
  induction items generalizing k atStart notes with
  | nil =>
    have hlanding : landing starts k = k := by
      rw [landing, hstarts]
      rfl
    have hlast := places_notePieces k 0 notes []
    rw [List.append_nil] at hlast
    simp [laid, hlast, Piece.places, slots, placesKept, hlanding]
  | cons item rest ih =>
    have hinside : atStart = true → ∃ text remarks more, item :: rest = .word text remarks :: more :=
      fun h => (hstart h).2
    cases item with
    | word text remarks =>
      have hdrop : starts.drop (k + 1) = Item.wordStarts false rest := by
        rw [← List.drop_drop, hstarts]
        rfl
      have hwait : notes.map (fun _ => landing starts k) = notes.map fun _ => landing starts (k + 1) := by
        cases atStart with
        | true => rw [(hstart rfl).1]; rfl
        | false => rw [(landing_of_false hstarts).2]
      have hlater := @ih (k + 1) false (notes ++ remarks) hlines hdrop (by simp)
      rw [laid, Piece.places, hlater]
      simp only [slots, placesKept, List.map_append, List.map_map, Function.comp_def, hwait,
        List.append_assoc]
    | omitted remarks =>
      obtain rfl : atStart = false := by
        cases atStart with
        | true => obtain ⟨_, _, _, h⟩ := hinside rfl; cases h
        | false => rfl
      have hlater := @ih k false (notes ++ remarks) hlines hstarts (by simp)
      rw [laid, hlater]
      simp only [slots, placesKept, List.map_append, List.append_assoc]
    | space =>
      obtain rfl : atStart = false := by
        cases atStart with
        | true => obtain ⟨_, _, _, h⟩ := hinside rfl; cases h
        | false => rfl
      exact @ih k false notes hlines hstarts (by simp)
    | line indent noteIndent blank =>
      obtain ⟨⟨text, remarks, more, rfl⟩, hmore⟩ := hlines
      have hlater := @ih k true [] hmore hstarts fun _ => ⟨rfl, text, remarks, more, rfl⟩
      have hline : Piece.places k (laid notes (.line indent noteIndent blank :: .word text remarks ::
          more)) = notes.map (fun _ => k) ++ Piece.places k (laid [] (.word text remarks :: more)) := by
        have hbefore := places_notePieces k noteIndent notes
          (.lineStart indent :: laid [] (.word text remarks :: more))
        cases blank <;> exact hbefore
      have hlanding : notes.map (fun _ => landing starts k) = notes.map fun _ => k := by
        rw [landing_of_true hstarts]
      rw [hline, hlater]
      simp only [slots, List.map_append, List.map_map, Function.comp_def, List.map_nil,
        List.nil_append, hlanding]

theorem notesLined_notePieces (lined : Bool) (indent : Int) (notes : List String)
    {rest : List Piece} (h : ∀ lined, Piece.NotesLined lined rest) :
    Piece.NotesLined lined (notePieces indent notes ++ rest) := by
  induction notes generalizing lined with
  | nil => exact h lined
  | cons note more ih => exact ⟨rfl, ih false⟩

theorem notesLined_laid (lined : Bool) (notes : List String) (items : List Item) :
    Piece.NotesLined lined (laid notes items) := by
  induction items generalizing lined notes with
  | nil =>
    have hnil : ∀ lined, Piece.NotesLined lined [] := fun _ => trivial
    have hlast := notesLined_notePieces lined 0 notes hnil
    rwa [List.append_nil] at hlast
  | cons item rest ih =>
    cases item with
    | word text remarks => exact ih false _
    | omitted remarks => exact ih lined _
    | space => exact ih false _
    | line indent noteIndent blank =>
      cases blank with
      | true => exact notesLined_notePieces false noteIndent notes fun _ => ih true []
      | false => exact notesLined_notePieces lined noteIndent notes fun _ => ih true []

end

/-! ## 4. The output -/

namespace Piece

/-- What stands before the next piece: white space, if there is any. -/
def lastToken (before : Option Token) (gap : List Char) : Option Token :=
  if gap = [] then before else some ⟨.whitespace, String.ofList gap, Position.start⟩

section

variable {version : Version} {pieces : List Piece} {gap : List Char}

theorem map_gapSegment (gap : List Char) : (gapSegment gap).map (Segment.spelled version) =
    if gap = [] then [] else [⟨.whitespace, String.ofList gap, Position.start⟩] := by
  unfold gapSegment
  split <;> rfl

/-- White space before tokens shows in nothing but the lines that they begin. -/
theorem of_gapSegment (version : Version) (gap : List Char) (tokens : List Token) :
    let spaced := (gapSegment gap).map (Segment.spelled version) ++ tokens
    commentTexts spaced = commentTexts tokens ∧ programTexts spaced = programTexts tokens ∧
      (∀ n, placesOf n spaced = placesOf n tokens) ∧
      (∀ atStart, lineStarts atStart spaced = lineStarts (atStart || gap.contains '\n') tokens) ∧
      ∀ before, StandAlone before spaced ↔ StandAlone (lastToken before gap) tokens := by
  simp only [map_gapSegment, lastToken]
  by_cases hempty : gap = []
  · simp [hempty]
  · simp [hempty, commentTexts, programTexts, placesOf, lineStarts, StandAlone]

/-- The tokens of a page whose pieces are separate. -/
theorem of_segments (h : Separate pieces) (hwords : ∀ t, .text t ∈ pieces → IsCode version t)
    (gap : List Char) :
    let tokens := (segments gap pieces).map (Segment.spelled version)
    commentTexts tokens = pieces.filterMap note? ∧ programTexts tokens = pieces.filterMap word? ∧
      (∀ n, placesOf n tokens = places n pieces) ∧
      ∀ atStart, lineStarts atStart tokens =
        textStarts (atStart || gap.contains '\n') pieces := by
  induction pieces generalizing gap with
  | nil =>
    have hspace : (segments gap []).map (Segment.spelled version) =
        [⟨.whitespace, String.ofList (gap ++ ['\n']), Position.start⟩] := rfl
    simp [hspace, commentTexts, programTexts, placesOf, lineStarts, places, textStarts]
  | cons piece rest ih =>
    have hrest : ∀ t, .text t ∈ rest → IsCode version t :=
      fun t ht => hwords t (List.mem_cons_of_mem _ ht)
    cases piece with
    | text t =>
      obtain ⟨hspace, hcomment⟩ := (hwords t (by simp)).kind_ne
      obtain ⟨hcomments, hprogram, hplaces, hstarts⟩ := ih h.2 hrest []
      have hgap := of_gapSegment version gap
        (spell version t :: (segments [] rest).map (Segment.spelled version))
      simp only [segments, List.map_append, List.map_cons, Segment.spelled_rawKind, hgap,
        commentTexts, programTexts, placesOf, lineStarts, hspace, hcomment, or_self, if_false,
        hcomments, hprogram, hplaces, hstarts, places, textStarts, spell_text]
      exact ⟨rfl, rfl, fun _ => trivial, fun _ => rfl⟩
    | comment t =>
      have hcomment : (spell version t).kind = .comment := spell_remark h.1
      obtain ⟨hcomments, hprogram, hplaces, hstarts⟩ := ih h.2.2 hrest []
      have hgap := of_gapSegment version gap
        (spell version t :: (segments [] rest).map (Segment.spelled version))
      simp only [segments, List.map_append, List.map_cons, Segment.spelled_rawKind, hgap,
        commentTexts, programTexts, placesOf, lineStarts, hcomment, true_or, if_true,
        hcomments, hprogram, hplaces, hstarts, places, textStarts, spell_text]
      exact ⟨rfl, rfl, fun _ => trivial, fun _ => rfl⟩
    | space =>
      obtain ⟨hcomments, hprogram, hplaces, hstarts⟩ := ih h hrest (gap ++ [' '])
      refine ⟨hcomments, hprogram, hplaces, fun atStart => (hstarts atStart).trans ?_⟩
      simp [textStarts]
    | lineStart indent =>
      obtain ⟨hcomments, hprogram, hplaces, hstarts⟩ := ih h hrest (gap ++ (lineStart indent).chars)
      refine ⟨hcomments, hprogram, hplaces, fun atStart => (hstarts atStart).trans ?_⟩
      simp [textStarts, chars]
    | blank =>
      obtain ⟨hcomments, hprogram, hplaces, hstarts⟩ := ih h hrest (gap ++ ['\n'])
      refine ⟨hcomments, hprogram, hplaces, fun atStart => (hstarts atStart).trans ?_⟩
      simp [textStarts]

/-- White space that begins with a line end is a segment that does. -/
theorem segments_line (more : List Char) (pieces : List Piece) :
    ∃ more' later, segments ('\n' :: more) pieces = ⟨.whitespace, '\n' :: more'⟩ :: later := by
  induction pieces generalizing more with
  | nil => exact ⟨_, _, rfl⟩
  | cons piece rest ih =>
    cases piece with
    | text t => exact ⟨more, _, rfl⟩
    | comment t => exact ⟨more, _, rfl⟩
    | space => exact ih _
    | lineStart indent => exact ih _
    | blank => exact ih _

/-- A line ends before pieces that begin with a line end. -/
theorem beginsWithLineEnd_segments (h : Separate pieces) (hopening : opening pieces = '\n') :
    BeginsWithLineEnd ((segments [] pieces).map (Segment.spelled version)).head? := by
  have hline : ∀ more later, segments [] pieces = ⟨.whitespace, '\n' :: more⟩ :: later →
      BeginsWithLineEnd ((segments [] pieces).map (Segment.spelled version)).head? := by
    intro more later heq
    rw [heq]
    exact ⟨rfl, by simp [Segment.spelled]⟩
  cases pieces with
  | nil => exact hline [] [] rfl
  | cons piece rest =>
    cases piece with
    | text t =>
      obtain ⟨d, tail, hd, hblank⟩ := plain_starts h.1
      obtain rfl : d = '\n' := by simpa [opening, hd] using hopening
      exact absurd hblank (by decide)
    | comment t =>
      obtain ⟨tail, hd⟩ := remark_starts h.1
      simp [opening, hd] at hopening
    | space => exact absurd (show ' ' = '\n' from hopening) (by decide)
    | lineStart indent =>
      obtain ⟨more, later, heq⟩ := segments_line (List.replicate indent.toNat ' ') rest
      exact hline more later heq
    | blank =>
      obtain ⟨more, later, heq⟩ := segments_line [] rest
      exact hline more later heq

/-- Comments that come after line starts stand alone. -/
theorem standAlone_segments {before : Option Token} {lined : Bool} (h : Separate pieces)
    (hwords : ∀ t, .text t ∈ pieces → IsCode version t) (hnotes : NotesLined lined pieces)
    (hbefore : lined = true → EndsInIndentation (lastToken before gap)) :
    StandAlone before ((segments gap pieces).map (Segment.spelled version)) := by
  induction pieces generalizing before lined gap with
  | nil => exact ⟨nofun, trivial⟩
  | cons piece rest ih =>
    have hrest : ∀ t, .text t ∈ rest → IsCode version t :=
      fun t ht => hwords t (List.mem_cons_of_mem _ ht)
    cases piece with
    | text t =>
      have hcode := (hwords t (by simp)).kind_ne.2
      simp only [segments, List.map_append, List.map_cons, Segment.spelled_rawKind]
      refine ((of_gapSegment version gap _).2.2.2.2 before).2 ⟨fun hcomment => absurd hcomment hcode, ?_⟩
      exact ih h.2 hrest hnotes (by simp)
    | comment t =>
      simp only [segments, List.map_append, List.map_cons, Segment.spelled_rawKind]
      refine ((of_gapSegment version gap _).2.2.2.2 before).2 ⟨fun _ => ⟨hbefore hnotes.1, ?_⟩, ?_⟩
      · exact beginsWithLineEnd_segments h.2.2 h.2.1
      · exact ih h.2.2 hrest hnotes.2 (by simp)
    | space => exact ih h hrest hnotes (by simp)
    | lineStart indent =>
      refine ih h hrest hnotes fun _ => ?_
      have hne : gap ++ (lineStart indent).chars ≠ [] := by simp [chars]
      rw [lastToken, if_neg hne]
      exact ⟨rfl, gap, indent.toNat, by simp [chars]⟩
    | blank => exact ih h hrest hnotes (by simp)

end

end Piece

section

variable {version : Version} {source text : String} {raw : List Token} {tree : Block}

theorem classified_of_tokens {tokens : List Token} (h : tokenize source = .ok tokens)
    (haccepted : ∀ t ∈ tokens, accepts version t.kind t.text = true) :
    classified version source = .ok (tokens.map (Token.final version)) := by
  rw [classified, h]
  simp only [bind, Except.bind, reduce, mapM_classify_eq_ok_iff.2 ⟨haccepted, rfl⟩]
  rfl

/-- What the tokens of the output, moved to the start, have to do with the pieces of the page. -/
theorem Reads.classified_output (h : Reads version source raw tree) :
    ∃ written, classified version (printed version raw tree) = .ok written ∧
      commentTexts written = (piecesOf version raw tree).filterMap Piece.note? ∧
      programTexts written = (piecesOf version raw tree).filterMap Piece.word? ∧
      placesOf 0 written = Piece.places 0 (piecesOf version raw tree) ∧
      lineStarts true written = Piece.textStarts false (piecesOf version raw tree) ∧
      StandAlone none written := by
  obtain ⟨segments, htokens, hsegments⟩ := h.output_segments
  rcases hsegments with ⟨hempty, rfl⟩ | ⟨pieces, hpieces, hseparate, hwords, rfl⟩
  · refine ⟨[], classified_of_tokens htokens (by simp [Segment.place]), ?_⟩
    rw [hempty]
    exact ⟨rfl, rfl, rfl, rfl, trivial⟩
  · have haccepted := accepts_place (@Piece.accepts_segments _ _ [] hseparate hwords)
      Position.start
    have hbare : ((Segment.place Position.start (Piece.segments [] pieces)).map
        (Token.final version)).map Token.bare =
        (Piece.segments [] pieces).map (Segment.spelled version) := by
      rw [List.map_map]
      exact Piece.map_final_place _ _
    obtain ⟨hcomments, hprogram, hplaces, hstarts⟩ := Piece.of_segments hseparate hwords []
    have hlined : Piece.NotesLined true pieces := by
      have hall := notesLined_laid true (leadOf version raw) (split (tree.layout false 0))
      rw [← piecesOf, hpieces] at hall
      exact hall
    have hnothing : EndsInIndentation (Piece.lastToken none []) := trivial
    have halone := Piece.standAlone_segments hseparate hwords hlined fun _ => hnothing
    refine ⟨_, classified_of_tokens htokens haccepted, ?_⟩
    rw [← commentTexts_bare, ← programTexts_bare, ← placesOf_bare, ← lineStarts_bare,
      ← standAlone_bare, hbare, hpieces]
    exact ⟨hcomments, hprogram, hplaces 0, hstarts true, halone⟩

/-- Formatting keeps the comments, each on lines of its own: a comment lands
before the first token of the output that begins a line among those that it
stood before in the source, and at the end if there is none. -/
theorem comments_format (h : format version source = .ok text) :
    ∃ read written, classified version source = .ok read ∧ classified version text = .ok written ∧
      commentTexts written = commentTexts read ∧ StandAlone none written ∧
      programTexts written = normalize (programTexts read) ∧
      placesOf 0 written = (placesOf 0 read).map fun n =>
        landing (lineStarts true written) (survivors (programTexts read) n) := by
  obtain ⟨raw, tree, hreads, rfl⟩ := format_eq_ok_iff.1 h
  obtain ⟨written, hwritten, hcomments, hprogram, hplaces, hstarts, halone⟩ :=
    hreads.classified_output
  obtain ⟨hremarks, hfates⟩ := hreads.slots_eq
  have hkept : ∀ t ∈ keptTokens version raw, t.kind ≠ .whitespace := by
    intro t ht
    simpa [Trim.keeps] using (List.mem_filter.1 ht).2
  obtain ⟨hread, hreadProgram, hreadPlaces⟩ := of_keptTokens version raw 0
  obtain ⟨hleaves, hwords, hafter⟩ := of_ofTokens hkept 0
  have hlead : (Leaf.ofTokens (keptTokens version raw)).1.map (·.text) = leadOf version raw := rfl
  refine ⟨_, written, classified_of_tokens hreads.tokens hreads.accepted, hwritten, ?_, halone,
    ?_, ?_⟩
  · rw [hcomments, piecesOf, filterMap_note_laid, hread, hleaves, hlead, List.flatMap_def, hremarks,
      List.flatMap_def]
  · rw [hprogram, piecesOf, filterMap_word_laid, hfates, hreadProgram, hwords]
    rfl
  · have hdrop : (lineStarts true written).drop 0 =
        Item.wordStarts false (split (tree.layout false 0)) := by
      rw [hstarts, piecesOf, textStarts_laid]
      rfl
    have hland : Piece.places 0 (piecesOf version raw tree) = _ :=
      places_laid (Item.linesBegin_split hreads.apart) hdrop (by simp)
    have hslots := @map_survivors (slots (split (tree.layout false 0))) []
    simp only [List.length_nil, List.countP_nil, List.nil_append, hremarks, hfates] at hslots
    have hfirst : survivors (wordsOf version raw) 0 = 0 := rfl
    have hwordsOf : (Leaf.ofTokens (keptTokens version raw)).2.map (·.token.text) =
        wordsOf version raw := rfl
    rw [hplaces, hland, hreadPlaces, hafter, hlead, hreadProgram, hwords, hwordsOf,
      ← hslots]
    simp only [List.map_append, List.map_map, Function.comp_def, hfirst]
    rfl

/-- A comment goes from the end of the first line to the start of the next one,
and one before a closing bracket to the end. -/
theorem comments_format_call :
    format 1 "f() --a\ng(--b\n)" = .ok "f()\n--a\ng()\n--b\n" ∧
      ∃ read written, classified 1 "f() --a\ng(--b\n)" = .ok read ∧
        classified 1 "f()\n--a\ng()\n--b\n" = .ok written ∧
        commentTexts written = commentTexts read ∧ StandAlone none written ∧
        programTexts written = normalize (programTexts read) ∧
        placesOf 0 written = (placesOf 0 read).map fun n =>
          landing (lineStarts true written) (survivors (programTexts read) n) :=
  ⟨by decide +kernel, comments_format (by decide +kernel)⟩

end

end LuaLayout
