/-
LuaLayout.Proofs.Format.Printed — what formatting succeeds on, and what it prints.

A source is formatted exactly where it reads as a tree: its tokens are accepted,
and its leaves are those of a tree that fits. The text is then what the layout
of the tree puts down, and that text is cut into the words and comments of the
page again. So whatever is to be said about the output can be said about pieces.
-/
import LuaLayout.Format
import LuaLayout.Proofs.Layout.Apart
import LuaLayout.Proofs.Page.Words
import LuaLayout.Proofs.Parser.Blocks
import LuaLayout.Proofs.Parser.Failures

namespace LuaLayout

open Lexeme Page
open Item (Apart split slots)

/-! ## 1. Sources that read as trees -/

/-- The source reads as the tree; `raw` are its tokens. -/
structure Reads (version : Version) (source : String) (raw : List Token) (tree : Block) : Prop where
  tokens : tokenize source = .ok raw
  accepted : ∀ t ∈ raw, accepts version t.kind t.text = true
  leaves : (Leaf.ofTokens (joinSigns true (keptTokens version raw))).2 = tree.leaves
  fits : tree.Fits none

/-- The comments before the first token of a program. -/
def leadOf (version : Version) (raw : List Token) : List String :=
  (Leaf.ofTokens (keptTokens version raw)).1.map (·.text)

/-- The texts of the tokens of a program, before signs are joined. -/
def wordsOf (version : Version) (raw : List Token) : List String :=
  (Leaf.ofTokens (keptTokens version raw)).2.map (·.token.text)

/-- The pieces of a program, words taken apart. -/
def piecesOf (version : Version) (raw : List Token) (tree : Block) : List Piece :=
  laid (leadOf version raw) (split (tree.layout false 0))

/-- The text of a program. -/
def printed (version : Version) (raw : List Token) (tree : Block) : String :=
  Session.endLine (String.ofList ((piecesOf version raw tree).tail.flatMap Piece.chars))

section

variable {version : Version} {source text : String} {raw : List Token} {tree : Block}

theorem isCode_comma : IsCode version "," :=
  ⟨.operator, rfl, isLexeme_operator.2 (by decide), rfl⟩

namespace Block.Fits

theorem settles_program (h : tree.Fits none) (hg : AllGenuine version tree.leaves) :
    Settles [] tree.leaves (tree.layout false 0) := by
  have hall : Settles [] (tree.leaves ++ []) (tree.layout false 0 ++ []) :=
    Block.settles tree h hg (by simp) (by simp [Unbraced]) .nil
  simpa using hall

theorem apart_program (h : tree.Fits none) (hg : AllGenuine version tree.leaves) :
    Apart (tree.layout false 0) := by
  have hall : Apart (tree.layout false 0 ++ []) := Block.apart tree h hg rfl trivial
  simpa using hall

theorem begins_program (h : tree.Fits none) (hg : AllGenuine version tree.leaves) :
    Begins (tree.layout false 0) := by
  have hapart := apart_program h hg
  obtain ⟨statements⟩ := tree
  cases statements with
  | nil => exact .inl rfl
  | cons x more =>
    have hlayout : Block.layout false 0 (.mk (x :: more)) = .line 0 0 false ::
        (x.layout false 0 ++ statementsLayout false 0 x.declaresFunction more) := rfl
    rw [hlayout] at hapart ⊢
    obtain ⟨text, remarks, rest, hwords⟩ := hapart.1.begins
    exact .inr ⟨text, remarks, rest, by rw [hwords]⟩

end Block.Fits

namespace Reads

theorem lexical (h : Reads version source raw tree) :
    ∀ t ∈ keptTokens version raw, t.Lexical version :=
  keptTokens_lexical (isLexeme_of_tokenize h.tokens) h.accepted

theorem genuine (h : Reads version source raw tree) : AllGenuine version tree.leaves := by
  rw [← h.leaves]
  intro l hl
  obtain ⟨⟨htoken, hkind⟩, -⟩ := Leaf.of_mem_leaves hl
  rcases genuine_of_mem_joinSigns h.lexical htoken with ⟨hcomment, -⟩ | ⟨-, hgenuine⟩
  · exact absurd hcomment hkind
  · exact hgenuine

/-- The comments before the first token are comments. -/
theorem lead_remarks (h : Reads version source raw tree) :
    ∀ note ∈ leadOf version raw, IsRemark note.toList := by
  intro note hnote
  obtain ⟨c, hc, rfl⟩ := List.mem_map.1 hnote
  obtain ⟨hmem, hkind⟩ := Leaf.of_mem_lead hc
  rcases h.lexical c hmem with ⟨-, hremark⟩ | ⟨hcode, -⟩
  · exact hremark
  · exact absurd hkind hcode

/-- The lexemes of the tree are the tokens before signs were joined. -/
theorem lexemes (h : Reads version source raw tree) :
    lexemesOf tree.leaves = (Leaf.ofTokens (keptTokens version raw)).2.map Leaf.sheet := by
  rw [← h.leaves]
  exact (ofTokens_joinSigns h.lexical).2

theorem settles (h : Reads version source raw tree) :
    Settles [] tree.leaves (tree.layout false 0) := h.fits.settles_program h.genuine

theorem apart (h : Reads version source raw tree) : Apart (tree.layout false 0) :=
  h.fits.apart_program h.genuine

theorem notesFit (h : Reads version source raw tree) : NotesFit (tree.layout false 0) := by
  intro s hs note hnote
  have hmem : s.2 ∈ tree.leaves.map Leaf.remarks := by
    rw [← h.settles.remarks]
    exact List.mem_map_of_mem hs
  rw [← h.leaves] at hmem
  obtain ⟨l, hl, hremarks⟩ := List.mem_map.1 hmem
  rw [← hremarks] at hnote
  obtain ⟨c, hc, rfl⟩ := List.mem_map.1 hnote
  obtain ⟨hjoined, hkind⟩ := (Leaf.of_mem_leaves hl).2 c hc
  rcases genuine_of_mem_joinSigns h.lexical hjoined with ⟨-, hremark⟩ | ⟨hcode, -⟩
  · exact hremark
  · exact absurd hkind hcode

theorem begins (h : Reads version source raw tree) : Begins (tree.layout false 0) :=
  h.fits.begins_program h.genuine

/-! ## 2. Words and comments of the page -/

/-- The words are the fates of the tokens before signs were joined, and each
carries the comments of its token. -/
theorem slots_eq (h : Reads version source raw tree) :
    (slots (split (tree.layout false 0))).map Prod.snd =
        (Leaf.ofTokens (keptTokens version raw)).2.map Leaf.remarks ∧
      (slots (split (tree.layout false 0))).map Prod.fst = fates [] (wordsOf version raw) := by
  have hsplit := split_fates h.genuine h.settles.remarks h.settles.fates
  rw [← slots_split, h.lexemes, List.map_map, List.map_map] at hsplit
  exact hsplit

theorem separate (h : Reads version source raw tree) :
    Piece.Separate (piecesOf version raw tree) :=
  separate_laid h.apart h.lead_remarks h.notesFit

/-- Every token before signs are joined is a lexeme of the grammar. -/
theorem isCode_token (h : Reads version source raw tree) {word : String}
    (hword : word ∈ wordsOf version raw) : IsCode version word := by
  obtain ⟨l, hl, rfl⟩ := List.mem_map.1 hword
  obtain ⟨⟨htoken, hkind⟩, -⟩ := Leaf.of_mem_leaves hl
  rcases h.lexical _ htoken with ⟨hcomment, -⟩ | ⟨-, kind, hcode, hlex, haccepts, -⟩
  · exact absurd hcomment hkind
  · exact ⟨kind, hcode, hlex, haccepts⟩

/-- Every word is a lexeme of the grammar. -/
theorem isCode_word (h : Reads version source raw tree) {word : String}
    (hword : some word ∈ (slots (split (tree.layout false 0))).map Prod.fst) :
    IsCode version word := by
  rw [h.slots_eq.2] at hword
  rcases mem_fates hword with hmem | rfl
  · exact h.isCode_token hmem
  · exact isCode_comma

end Reads

end

/-- The words of a page are those of its items. -/
theorem mem_slots_of_laid {items : List Item} {notes : List String} {word : String}
    (h : Piece.text word ∈ laid notes items) : some word ∈ (slots items).map Prod.fst := by
  have hword : word ∈ (laid notes items).filterMap Piece.word? :=
    List.mem_filterMap.2 ⟨_, h, rfl⟩
  rw [filterMap_word_laid] at hword
  obtain ⟨fate', hmem, rfl⟩ := List.mem_filterMap.1 hword
  exact hmem

/-! ## 3. The output -/

theorem begins_split {items : List Item} (h : Begins items) : Begins (split items) := by
  obtain rfl | ⟨text, remarks, rest, rfl⟩ := h
  · exact .inl rfl
  · rcases unsign_cases text with hplain | ⟨number, -, hsigned⟩
    · exact .inr ⟨_, _, _, by rw [split, Item.split_plain hplain]⟩
    · exact .inr ⟨_, _, _, by rw [split, Item.split_signed hsigned]⟩

/-- The line start at the front of a program is one character. -/
theorem chars_tail_laid (notes : List String) {items : List Item} (h : Begins items) :
    (laid notes items).tail.flatMap Piece.chars = ((laid notes items).flatMap Piece.chars).tail := by
  rcases laid_begins notes h with heq | ⟨text, rest, heq | heq⟩ <;> rw [heq] <;> rfl

/-- The page of a program in the pieces of its lexemes. -/
theorem text_program (notes : List String) {items : List Item} (h : Begins items) :
    (((Page.empty.queueAll notes).layAll items).flush 0).text =
      String.ofList ((laid notes (split items)).tail.flatMap Piece.chars) := by
  rw [Page.text, Page.chars, ← Page.list, list_program notes h, chars_tail_laid notes h,
    chars_tail_laid notes (begins_split h), chars_laid_split]

theorem endLine_ofList {chars : List Char} (h : chars ≠ []) :
    Session.endLine (String.ofList chars) = String.ofList (chars ++ ['\n']) := by
  have hne : (String.ofList chars).isEmpty = false := by
    rwa [Bool.eq_false_iff, ne_eq, String.isEmpty_iff, String.ofList_eq_empty_iff]
  rw [Session.endLine, hne, String.ofList_append]
  rfl

section

variable {version : Version} {source text : String} {raw : List Token} {tree : Block}

namespace Reads

theorem isCode_text (h : Reads version source raw tree) {word : String}
    (hword : Piece.text word ∈ piecesOf version raw tree) : IsCode version word :=
  h.isCode_word (mem_slots_of_laid hword)

/-- A page has nothing on it, or it begins with a line start that the output
leaves out and goes on with something visible. -/
theorem printed_cases (h : Reads version source raw tree) :
    (piecesOf version raw tree = [] ∧ printed version raw tree = "") ∨
      ∃ pieces, piecesOf version raw tree = .lineStart 0 :: pieces ∧
        printed version raw tree = String.ofList (Piece.closed pieces) := by
  have hvisible : ∀ piece rest, Piece.Separate (piece :: rest) →
      (∃ text, piece = .text text) ∨ (∃ text, piece = .comment text) → piece.chars ≠ [] := by
    rintro piece rest hseparate (⟨text, rfl⟩ | ⟨text, rfl⟩) hempty
    · obtain ⟨d, tail, hd, -⟩ := Piece.plain_starts hseparate.1
      rw [Piece.chars, hd] at hempty
      cases hempty
    · obtain ⟨tail, hd⟩ := Piece.remark_starts hseparate.1
      rw [Piece.chars, hd] at hempty
      cases hempty
  have hcons : ∀ piece rest, piecesOf version raw tree = .lineStart 0 :: piece :: rest →
      (∃ text, piece = .text text) ∨ (∃ text, piece = .comment text) →
      printed version raw tree = String.ofList (Piece.closed (piece :: rest)) := by
    intro piece rest heq hpiece
    have hseparate := h.separate
    rw [heq] at hseparate
    have hne : (piece :: rest).flatMap Piece.chars ≠ [] := by
      intro hempty
      exact hvisible piece rest hseparate hpiece (List.append_eq_nil_iff.1 hempty).1
    rw [printed, heq, List.tail_cons, endLine_ofList hne]
    rfl
  rcases laid_begins (leadOf version raw) (begins_split h.begins) with
    heq | ⟨text, rest, heq | heq⟩
  · have hempty : piecesOf version raw tree = [] := heq
    exact .inl ⟨hempty, by rw [printed, hempty]; rfl⟩
  · exact .inr ⟨_, heq, hcons _ _ heq (.inl ⟨text, rfl⟩)⟩
  · exact .inr ⟨_, heq, hcons _ _ heq (.inr ⟨text, rfl⟩)⟩

/-- The output is cut into the pieces of the page. -/
theorem output_segments (h : Reads version source raw tree) :
    ∃ segments, tokenize (printed version raw tree) = .ok (Segment.place Position.start segments) ∧
      ((piecesOf version raw tree = [] ∧ segments = []) ∨
        ∃ pieces, piecesOf version raw tree = .lineStart 0 :: pieces ∧ Piece.Separate pieces ∧
          (∀ t, .text t ∈ pieces → IsCode version t) ∧ segments = Piece.segments [] pieces) := by
  rcases h.printed_cases with ⟨hempty, hprinted⟩ | ⟨pieces, hpieces, hprinted⟩
  · refine ⟨[], ?_, .inl ⟨hempty, rfl⟩⟩
    rw [hprinted]
    exact tokenize_eq_ok_iff.2 ⟨[], .nil [], rfl⟩
  · have hseparate : Piece.Separate pieces := by
      have hall := h.separate
      rwa [hpieces] at hall
    have hwords : ∀ t, .text t ∈ pieces → IsCode version t :=
      fun t ht => h.isCode_text (hpieces ▸ List.mem_cons_of_mem _ ht)
    refine ⟨Piece.segments [] pieces, ?_, .inr ⟨pieces, hpieces, hseparate, hwords, rfl⟩⟩
    rw [hprinted]
    refine tokenize_eq_ok_iff.2 ⟨Piece.segments [] pieces, ?_, rfl⟩
    rw [String.toList_ofList]
    have hnil : Piece.IsGap [] := by simp [Piece.IsGap]
    exact Piece.cuts_segments hseparate hnil

/-- The output is accepted, and without white space it is the texts and comments
of the page. -/
theorem output (h : Reads version source raw tree) :
    ∃ out, tokenize (printed version raw tree) = .ok out ∧
      (∀ t ∈ out, accepts version t.kind t.text = true) ∧
      (keptTokens version out).map Token.bare =
        (piecesOf version raw tree).filterMap (Piece.token? version) := by
  obtain ⟨segments, htokens, hsegments⟩ := h.output_segments
  refine ⟨_, htokens, ?_⟩
  rcases hsegments with ⟨hempty, rfl⟩ | ⟨pieces, hpieces, hseparate, hwords, rfl⟩
  · rw [hempty]
    exact ⟨by simp [Segment.place], rfl⟩
  · refine ⟨accepts_place (Piece.accepts_segments hseparate hwords) _, ?_⟩
    rw [Piece.keptTokens_segments hseparate hwords, hpieces]
    rfl

end Reads

/-! ## 4. Formatting -/

/-- A program given by its tokens is formatted exactly where its leaves are those
of a tree that fits. -/
theorem formatTokens_eq_ok_iff {tokens : List Token} :
    formatTokens .program tokens = .ok text ↔
      ∃ tree : Block, (Leaf.ofTokens tokens).2 = tree.leaves ∧ tree.Fits none ∧
        text = Session.endLine ((((Page.empty.queueAll ((Leaf.ofTokens tokens).1.map (·.text))).layAll
          (tree.layout false 0)).flush 0).text) := by
  have hblock : ∀ tree rest, (Rules.forLeaves true (Leaf.ofTokens tokens).2).block
      (Leaf.ofTokens tokens).2 = .ok (tree, rest) ↔
        (Leaf.ofTokens tokens).2 = tree.leaves ++ rest ∧ tree.Fits (Parser.tokenAt 0 rest) :=
    fun _ _ => Rules.forLeaves_block_eq_ok_iff
  rw [formatTokens_eq]
  constructor
  · intro h
    split at h
    · cases h
    · cases h
    · next tree hread =>
      obtain ⟨hleaves, hfits⟩ := (hblock tree []).1 hread
      rw [List.append_nil] at hleaves
      exact ⟨tree, hleaves, hfits, (Except.ok.inj h).symm⟩
  · rintro ⟨tree, hleaves, hfits, rfl⟩
    rw [(hblock tree []).2 ⟨by rw [List.append_nil, hleaves], hfits⟩]

/-- The stages of formatting. -/
theorem format_eq (version : Version) (source : String) : format version source = (do
    let tokens ← tokenize source
    let reduction ← reduce version .whitespace tokens
    formatTokens .program reduction.tokens) := by
  rw [format, formatChunks, prepare, tokenizeChunks_singleton]
  cases tokenize source with
  | error fault => rfl
  | ok tokens =>
    cases hreduce : reduce version .whitespace tokens <;>
      simp [bind, Except.bind, hreduce, pure, Except.pure, Prepared.format]

/-- Formatting succeeds exactly on what reads as a tree, and prints it. -/
theorem format_eq_ok_iff :
    format version source = .ok text ↔
      ∃ raw tree, Reads version source raw tree ∧ text = printed version raw tree := by
  have hprinted : ∀ {raw : List Token} {tree : Block}, Reads version source raw tree →
      Session.endLine ((((Page.empty.queueAll (leadOf version raw)).layAll
        (tree.layout false 0)).flush 0).text) = printed version raw tree := by
    intro raw tree h
    rw [text_program _ h.begins, printed, piecesOf]
  rw [format_eq]
  constructor
  · intro h
    cases htokens : tokenize source with
    | error fault =>
      rw [htokens] at h
      cases h
    | ok raw =>
      rw [htokens] at h
      cases hreduce : reduce version .whitespace raw with
      | error fault =>
        simp only [bind, Except.bind, hreduce] at h
        cases h
      | ok reduction =>
        simp only [bind, Except.bind, hreduce] at h
        obtain ⟨haccepted, rfl⟩ := reduce_whitespace_eq_ok_iff.1 hreduce
        obtain ⟨tree, hleaves, hfits, rfl⟩ := formatTokens_eq_ok_iff.1 h
        have hreads : Reads version source raw tree := ⟨htokens, haccepted, hleaves, hfits⟩
        refine ⟨raw, tree, hreads, ?_⟩
        rw [← hprinted hreads, leadOf, (ofTokens_joinSigns hreads.lexical).1]
  · rintro ⟨raw, tree, h, rfl⟩
    have hreduce := reduce_whitespace_eq_ok_iff.2 ⟨h.accepted, rfl⟩
    rw [h.tokens]
    simp only [bind, Except.bind, hreduce]
    refine formatTokens_eq_ok_iff.2 ⟨tree, h.leaves, h.fits, ?_⟩
    rw [← hprinted h, leadOf, (ofTokens_joinSigns h.lexical).1]

end

end LuaLayout
