/-
LuaLayout.Proofs.Page.Words — items whose words are single lexemes.

A number with its minus is one word of a layout and two lexemes of its text.
`Item.split` takes such words apart. That puts down the same characters, and
brings the slots of the items in line with the tokens before signs were joined.
Items that stay apart give separate pieces, so that a layout is read back word
by word.
-/
import LuaLayout.Proofs.Layout.Settles
import LuaLayout.Proofs.Page.Separate
import LuaLayout.Proofs.Page.Written

namespace LuaLayout

open Lexeme Page

/-! ## 1. Splitting words -/

/-- A text is not taken apart, or it is a minus and what it stands before. -/
theorem unsign_cases (text : String) :
    unsign text = [text] ∨ ∃ number, text = "-" ++ number ∧ unsign text = ["-", number] := by
  unfold unsign
  split
  · next d rest heq =>
    split
    · refine .inr ⟨String.ofList (d :: rest), ?_, rfl⟩
      have hlist : text.toList = ("-" ++ String.ofList (d :: rest)).toList := by
        rw [heq, String.toList_append, String.toList_ofList, String.toList_ofList]
        rfl
      exact String.toList_inj.1 hlist
    · exact .inl rfl
  · exact .inl rfl

/-- Neither a word that is taken apart nor its lexemes open or close anything. -/
theorem neutral_of_unsign {text minus number : String} (h : unsign text = [minus, number]) :
    Neutral text ∧ Neutral minus ∧ Neutral number := by
  unfold unsign at h
  split at h
  · next d rest htext =>
    split at h
    · next hbegins =>
      obtain ⟨rfl, rfl⟩ : "-" = minus ∧ String.ofList (d :: rest) = number := by simpa using h
      refine ⟨Token.Genuine.neutral_of_starts htext (by decide) (by decide), by decide,
        Token.Genuine.neutral_of_starts (String.toList_ofList) ?_ ?_⟩
      · simp only [beginsNumber, Bool.or_eq_true, beq_iff_eq] at hbegins
        rcases hbegins with hdigit | rfl
        · exact not_isNameStart_of_isDecimalDigit hdigit
        · decide
      · intro hmem
        simp only [List.mem_cons, List.not_mem_nil, or_false] at hmem
        rcases hmem with rfl | rfl | rfl | rfl <;> exact absurd hbegins (by decide)
    · cases h
  · cases h

namespace Item

/-- The items with every word taken apart; the last part carries the comments. -/
def split : List Item → List Item
  | [] => []
  | .word text remarks :: rest =>
    (splitWord text remarks).map (fun p => .word p.1 p.2) ++ split rest
  | .omitted remarks :: rest => .omitted remarks :: split rest
  | .space :: rest => .space :: split rest
  | .line indent noteIndent blank :: rest => .line indent noteIndent blank :: split rest

theorem split_plain {text : String} (h : unsign text = [text]) (remarks : List String)
    (rest : List Item) : split (.word text remarks :: rest) = .word text remarks :: split rest := by
  simp [split, splitWord_of_plain h]

theorem split_signed {text minus number : String} (h : unsign text = [minus, number])
    (remarks : List String) (rest : List Item) :
    split (.word text remarks :: rest) = .word minus [] :: .word number remarks :: split rest := by
  simp [split, splitWord_of_signed h]

end Item

open Item (Apart split slots)

/-- Taking words apart puts down the same characters. -/
theorem chars_laid_split (notes : List String) (items : List Item) :
    (laid notes (split items)).flatMap Piece.chars = (laid notes items).flatMap Piece.chars := by
  induction items generalizing notes with
  | nil => rfl
  | cons item rest ih =>
    cases item with
    | word text remarks =>
      rcases unsign_cases text with hplain | ⟨number, htext, hsigned⟩
      · simp [Item.split_plain hplain, laid, ih]
      · rw [Item.split_signed hsigned]
        simp [laid, ih, htext, Piece.chars]
    | omitted remarks => exact ih _
    | space => simp [split, laid, ih]
    | line indent noteIndent blank => simp [split, laid, ih]

/-! ## 2. From items to pieces -/

/-- A word that ends somewhere is a lexeme that ends there, or a minus before one. -/
theorem Ends.split {text : String} {c : Char} (h : Ends text.toList c) :
    (unsign text = [text] ∧ Plain text.toList c) ∨
      ∃ number, unsign text = ["-", number] ∧ text.toList.headD '\n' = '-' ∧
        Plain ['-'] (number.toList.headD '\n') ∧ Plain number.toList c := by
  rcases h with hplain | ⟨d, rest, htext, hbegins, hplain⟩
  · obtain ⟨kind, hcode, hlex, -⟩ := id hplain
    exact .inl ⟨unsign_code hcode hlex, hplain⟩
  · have hminus : Plain ['-'] d := by
      have hne : d ≠ '-' ∧ d ≠ '\n' := by
        constructor <;> (rintro rfl; exact absurd hbegins (by decide))
      rcases ends_minus hne.1 hne.2 with h | ⟨e, tail, h, -⟩
      · exact h
      · cases h
    refine .inr ⟨String.ofList (d :: rest), by simp [unsign, htext, hbegins], by simp [htext], ?_, ?_⟩
    · rwa [String.toList_ofList]
    · rwa [String.toList_ofList]

/-- Every comment of the slots is one. -/
def NotesFit (items : List Item) : Prop := ∀ s ∈ slots items, ∀ note ∈ s.2, IsRemark note.toList

theorem opening_laid_split (notes : List String) (items : List Item) :
    Piece.opening (laid notes (split items)) = Item.opening items := by
  induction items generalizing notes with
  | nil => cases notes <;> rfl
  | cons item rest ih =>
    cases item with
    | word text remarks =>
      rcases unsign_cases text with hplain | ⟨number, htext, hsigned⟩
      · rw [Item.split_plain hplain]
        rfl
      · rw [Item.split_signed hsigned]
        simp [laid, Piece.opening, Item.opening, htext]
    | omitted remarks => exact ih _
    | space => rfl
    | line indent noteIndent blank =>
      cases blank with
      | true => rfl
      | false => cases notes <;> rfl

theorem separate_notePieces {notes : List String} (indent : Int) {rest : List Piece}
    (hnotes : ∀ note ∈ notes, IsRemark note.toList) (hopening : Piece.opening rest = '\n')
    (hrest : Piece.Separate rest) : Piece.Separate (notePieces indent notes ++ rest) ∧
      Piece.opening (notePieces indent notes ++ rest) = '\n' := by
  induction notes with
  | nil => exact ⟨hrest, hopening⟩
  | cons note notes ih =>
    obtain ⟨hnote, hlater⟩ := List.forall_mem_cons.1 hnotes
    obtain ⟨hseparate, hline⟩ := ih hlater
    exact ⟨⟨hnote, hline, hseparate⟩, rfl⟩

/-- Items that stay apart give separate pieces. -/
theorem separate_laid {items : List Item} {notes : List String} (h : Apart items)
    (hnotes : ∀ note ∈ notes, IsRemark note.toList) (hitems : NotesFit items) :
    Piece.Separate (laid notes (split items)) := by
  induction items generalizing notes with
  | nil =>
    have hnil : Piece.Separate [] := trivial
    have hpieces := (separate_notePieces 0 hnotes rfl hnil).1
    rwa [List.append_nil] at hpieces
  | cons item rest ih =>
    cases item with
    | word text remarks =>
      obtain ⟨hremarks, hrest⟩ := List.forall_mem_cons.1 hitems
      have hmore : ∀ note ∈ notes ++ remarks, IsRemark note.toList :=
        fun note hnote => (List.mem_append.1 hnote).elim (hnotes note) (hremarks note)
      have hlater : Piece.Separate (laid (notes ++ remarks) (split rest)) := ih h.2 hmore hrest
      rcases h.1.split with ⟨hplain, hword⟩ | ⟨number, hsigned, -, hminus, hnumber⟩
      · rw [Item.split_plain hplain]
        refine ⟨?_, hlater⟩
        rwa [opening_laid_split]
      · rw [Item.split_signed hsigned]
        simp only [laid, List.append_nil]
        refine ⟨hminus, ?_, hlater⟩
        rwa [opening_laid_split]
    | omitted remarks =>
      obtain ⟨hremarks, hrest⟩ := List.forall_mem_cons.1 hitems
      exact ih h (fun note hnote => (List.mem_append.1 hnote).elim (hnotes note) (hremarks note)) hrest
    | space => exact ih h.2 hnotes hitems
    | line indent noteIndent blank =>
      have hlater : Piece.Separate (.lineStart indent :: laid [] (split rest)) :=
        ih h.2 (by simp) hitems
      obtain ⟨hseparate, -⟩ := separate_notePieces noteIndent hnotes rfl hlater
      cases blank with
      | true => exact hseparate
      | false => exact hseparate

/-! ## 3. Slots and fates -/

/-- A slot with its word taken apart. -/
def splitSlot : Option String × List String → List (Option String × List String)
  | (some text, remarks) => (splitWord text remarks).map fun p => (some p.1, p.2)
  | (none, remarks) => [(none, remarks)]

theorem slots_split (items : List Item) : slots (split items) = (slots items).flatMap splitSlot := by
  induction items with
  | nil => rfl
  | cons item rest ih =>
    cases item with
    | word text remarks =>
      rcases unsign_cases text with hplain | ⟨number, htext, hsigned⟩
      · simp [Item.split_plain hplain, slots, ih, splitSlot, splitWord_of_plain hplain]
      · simp [Item.split_signed hsigned, slots, ih, splitSlot, splitWord_of_signed hsigned]
    | omitted remarks => simp [split, slots, ih, splitSlot]
    | space => exact ih
    | line indent noteIndent blank => exact ih

theorem filterMap_word_notePieces (indent : Int) (notes : List String) :
    (notePieces indent notes).filterMap Piece.word? = [] := by
  induction notes with
  | nil => rfl
  | cons note rest ih => exact ih

/-- The texts of a page are the words of its items. -/
theorem filterMap_word_laid (notes : List String) (items : List Item) :
    (laid notes items).filterMap Piece.word? = ((slots items).map Prod.fst).filterMap id := by
  induction items generalizing notes with
  | nil => exact filterMap_word_notePieces 0 notes
  | cons item rest ih =>
    cases item with
    | word text remarks => exact congrArg (text :: ·) (ih _)
    | omitted remarks => exact ih _
    | space => exact ih _
    | line indent noteIndent blank =>
      rw [laid, List.filterMap_append, List.filterMap_append, filterMap_word_notePieces]
      cases blank with
      | true => exact ih _
      | false => exact ih _

/-- The lexemes of a token of the grammar: itself, or a minus and a number, all
of them neutral. -/
theorem Token.Genuine.lexemes {version : Version} {t : Token} (h : t.Genuine version) :
    unsign t.text = [t.text] ∨
      ∃ number, unsign t.text = ["-", number] ∧ Neutral t.text ∧ Neutral number := by
  cases id h with
  | plain kind hcode hcomes => exact .inl (unsign_code hcode hcomes.1)
  | signed kind number hnumeral hlex hkind htext =>
    obtain ⟨d, tail, hd, hbegins⟩ := numeral_starts hnumeral hlex
    have hgenuine : (⟨.number, number, t.pos⟩ : Token).Genuine version :=
      .plain kind (by simp [TokenKind.isCode, hnumeral])
        ⟨hlex, accepts_numeral hnumeral, (finalKind_numeral hnumeral).symm⟩
    exact .inr ⟨number, by rw [htext, unsign_minus hd hbegins], h.neutral_number hkind,
      hgenuine.neutral_number rfl⟩

/-- The lexemes of leaves, each with the comments after it. -/
def lexemesOf (leaves : List Leaf) : List (String × List String) :=
  leaves.flatMap fun l => splitWord l.token.text l.remarks

section

variable {version : Version} {leaves : List Leaf}

theorem head_lexemesOf (hg : AllGenuine version leaves) :
    ((lexemesOf leaves).map Prod.fst).head? = some "\x7d" ↔
      (leaves.map (·.token.text)).head? = some "\x7d" := by
  cases leaves with
  | nil => rfl
  | cons l rest =>
    simp only [lexemesOf, List.flatMap_cons, List.map_append]
    rcases (AllGenuine.cons_iff.1 hg).1.lexemes with hplain | ⟨number, hsigned, hneutral, -⟩
    · simp [splitWord_of_plain hplain]
    · have hne : l.token.text ≠ "\x7d" := by
        intro htext
        rw [htext] at hneutral
        exact absurd hneutral (by decide)
      simp [splitWord_of_signed hsigned, hne]

/-- Slots that are the fates of leaves, taken apart, are the fates of lexemes. -/
theorem split_fates {stack : List String} {list : List (Option String × List String)}
    (hg : AllGenuine version leaves) (hremarks : list.map Prod.snd = leaves.map Leaf.remarks)
    (hfates : fates stack (leaves.map (·.token.text)) = list.map Prod.fst) :
    (list.flatMap splitSlot).map Prod.snd = (lexemesOf leaves).map Prod.snd ∧
      (list.flatMap splitSlot).map Prod.fst = fates stack ((lexemesOf leaves).map Prod.fst) := by
  induction leaves generalizing stack list with
  | nil =>
    obtain rfl : list = [] := List.map_eq_nil_iff.1 hremarks
    exact ⟨rfl, rfl⟩
  | cons l rest ih =>
    obtain ⟨hgl, hgrest⟩ := AllGenuine.cons_iff.1 hg
    obtain ⟨⟨fate', remarks⟩, list, rfl⟩ : ∃ s more, list = s :: more := by
      cases list with
      | nil => cases hremarks
      | cons s more => exact ⟨s, more, rfl⟩
    simp only [List.map_cons, List.cons.injEq, fates] at hremarks hfates
    obtain ⟨hremark, hremarks⟩ := hremarks
    obtain ⟨hfate, hfates⟩ := hfates
    subst hremark
    obtain ⟨ihremarks, ihfates⟩ := ih hgrest hremarks hfates
    simp only [List.flatMap_cons, List.map_append, lexemesOf] at ihremarks ihfates ⊢
    rcases hgl.lexemes with hplain | ⟨number, hsigned, hneutral, hnumber⟩
    · have hslot : splitSlot (fate', l.remarks) = [(fate', l.remarks)] := by
        cases fate' with
        | none => rfl
        | some word =>
          rcases of_fate_some hfate with rfl | ⟨-, rfl⟩
          · simp [splitSlot, splitWord_of_plain hplain]
          · rfl
      have hnext := fate_congr stack l.token.text (head_lexemesOf hgrest)
      simp only [lexemesOf] at hnext
      simp only [hslot, splitWord_of_plain hplain, List.map_cons, List.map_nil, ihremarks, ihfates,
        List.cons_append, List.nil_append, fates, hnext, hfate, and_self]
    · have hminus : Neutral "-" := by decide
      rw [track_neutral hneutral] at ihfates
      rw [fate_neutral hneutral] at hfate
      simp only [← hfate, splitSlot, splitWord_of_signed hsigned, List.map_cons, List.map_nil,
        List.cons_append, List.nil_append, ihremarks, ihfates, fates_neutral hminus,
        fates_neutral hnumber, and_self]

end

end LuaLayout
