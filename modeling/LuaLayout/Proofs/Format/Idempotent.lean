/-
LuaLayout.Proofs.Format.Idempotent — formatted text is left as it is.

A comment that is put down before a line waits, when the output is read again,
after the last word before it, and it comes to the same line again. The words of
the output are those of the layout, which spell a tree that looks the same; with
its comments in their new places that tree puts down the same page.
-/
import LuaLayout.Proofs.Format.Uncommented

namespace LuaLayout

open Page
open Item (flat split slots)

/-! ## 1. Items and their comments -/

namespace Item

/-- The items without comments and what is left out. -/
def bare : List Item → List Item
  | [] => []
  | .word text _ :: rest => .word text [] :: bare rest
  | .omitted _ :: rest => bare rest
  | .space :: rest => .space :: bare rest
  | .line indent noteIndent blank :: rest => .line indent noteIndent blank :: bare rest

/-- The items with comments for each of their words. -/
def refill : List Item → List (List String) → List Item
  | .word text _ :: rest, remarks :: more => .word text remarks :: refill rest more
  | .space :: rest, more => .space :: refill rest more
  | .line indent noteIndent blank :: rest, more =>
    .line indent noteIndent blank :: refill rest more
  | _, _ => []

/-- Comments where they are put down: those before the next word, and the items
with every comment at the last word before it. -/
def carried : List String → List Item → List String × List Item
  | notes, [] => (notes, [])
  | notes, .word text remarks :: rest =>
    let (later, items) := carried (notes ++ remarks) rest
    ([], .word text later :: items)
  | notes, .omitted remarks :: rest => carried (notes ++ remarks) rest
  | notes, .space :: rest =>
    let (later, items) := carried notes rest
    (later, .space :: items)
  | notes, .line indent noteIndent blank :: rest =>
    let (later, items) := carried [] rest
    (notes ++ later, .line indent noteIndent blank :: items)

section

variable {items : List Item} {notes : List String}

theorem bare_split (items : List Item) : bare (split items) = flat items := by
  induction items with
  | nil => rfl
  | cons item rest ih =>
    cases item with
    | word text remarks =>
      rcases unsign_cases text with hplain | ⟨number, -, hsigned⟩
      · simp [split_plain hplain, bare, flat, hplain, ih]
      · simp [split_signed hsigned, bare, flat, hsigned, ih]
    | omitted remarks => exact ih
    | space => exact congrArg _ ih
    | line indent noteIndent blank => exact congrArg _ ih

/-- Items that leave nothing out are known by what they look like and their comments. -/
theorem refill_bare (h : ∀ s ∈ slots items, s.1.isSome = true) :
    refill (bare items) ((slots items).map Prod.snd) = items := by
  induction items with
  | nil => rfl
  | cons item rest ih =>
    cases item with
    | word text remarks => exact congrArg _ (ih (List.forall_mem_cons.1 h).2)
    | omitted remarks => exact absurd (List.forall_mem_cons.1 h).1 Bool.false_ne_true
    | space => exact congrArg _ (ih h)
    | line indent noteIndent blank => exact congrArg _ (ih h)

theorem bare_carried : bare (carried notes items).2 = bare items := by
  induction items generalizing notes with
  | nil => rfl
  | cons item rest ih =>
    cases item with
    | word text remarks => exact congrArg (.word text [] :: ·) ih
    | omitted remarks => exact ih
    | space => exact congrArg (.space :: ·) ih
    | line indent noteIndent blank => exact congrArg (.line indent noteIndent blank :: ·) ih

/-- The words stay, and nothing is left out. -/
theorem slots_carried : (slots (carried notes items).2).map Prod.fst =
    (((slots items).map Prod.fst).filterMap id).map some := by
  induction items generalizing notes with
  | nil => rfl
  | cons item rest ih =>
    cases item with
    | word text remarks => exact congrArg (some text :: ·) ih
    | omitted remarks => exact ih
    | space => exact ih
    | line indent noteIndent blank => exact ih

theorem slots_bare : (slots (bare items)).map Prod.fst =
    (((slots items).map Prod.fst).filterMap id).map some := by
  induction items with
  | nil => rfl
  | cons item rest ih =>
    cases item with
    | word text remarks => exact congrArg (some text :: ·) ih
    | omitted remarks => exact ih
    | space => exact ih
    | line indent noteIndent blank => exact ih

/-- A comment that is carried to the last word before it is put down there again. -/
theorem laid_carried (h : LinesBegin items) :
    laid (carried notes items).1 (carried notes items).2 = laid notes items := by
  induction items generalizing notes with
  | nil => rfl
  | cons item rest ih =>
    cases item with
    | word text remarks => exact congrArg (.text text :: ·) (ih h)
    | omitted remarks => exact ih h
    | space => exact congrArg (.space :: ·) (ih h)
    | line indent noteIndent blank =>
      -- the line begins with a word, so no comment comes between the two
      obtain ⟨⟨text, remarks, more, rfl⟩, hrest⟩ := h
      have hlater := @ih [] hrest
      have hnone : (carried [] (.word text remarks :: more)).1 = [] := rfl
      simp only [carried, laid, List.append_nil] at hlater ⊢
      rw [hlater]

end

end Item

/-! ## 2. Comments of the output -/

section

variable {version : Version} {tokens more : List Token}

/-- Places play no part for leaves. -/
theorem ofTokens_bare (tokens : List Token) :
    (Leaf.ofTokens (tokens.map Token.bare)).1 = (Leaf.ofTokens tokens).1.map Token.bare ∧
      (Leaf.ofTokens (tokens.map Token.bare)).2.map Leaf.sheet =
        (Leaf.ofTokens tokens).2.map Leaf.sheet := by
  induction tokens with
  | nil => exact ⟨rfl, rfl⟩
  | cons t rest ih =>
    have hbare : Leaf.isComment t.bare = Leaf.isComment t := rfl
    rw [List.map_cons, Leaf.ofTokens_cons, Leaf.ofTokens_cons, hbare]
    cases Leaf.isComment t with
    | true => simp [ih]
    | false =>
      simp only [Bool.false_eq_true, if_false, List.map_cons, ih, List.map_nil, true_and]
      simp [Leaf.sheet, Leaf.remarks]

theorem filterMap_token_notes (version : Version) (indent : Int) (notes : List String)
    (rest : List Piece) :
    (notePieces indent notes ++ rest).filterMap (Piece.token? version) =
      notes.map (spell version) ++ rest.filterMap (Piece.token? version) := by
  induction notes with
  | nil => rfl
  | cons note notes ih => exact congrArg (spell version note :: ·) ih

/-- The comments that come before some pieces are read as comments. -/
theorem isComment_notes {indent : Int} {notes : List String} {pieces : List Piece}
    (h : ∀ t, .comment t ∈ notePieces indent notes ++ pieces → (spell version t).kind = .comment) :
    ∀ c ∈ notes.map (spell version), Leaf.isComment c = true := by
  intro c hc
  obtain ⟨note, hnote, rfl⟩ := List.mem_map.1 hc
  refine Leaf.isComment_iff.2 (h note (List.mem_append_left _ ?_))
  exact List.mem_flatMap.2 ⟨note, hnote, by simp⟩

theorem map_text_spell (version : Version) (notes : List String) :
    (notes.map (spell version)).map (·.text) = notes := by
  rw [List.map_map]
  exact List.map_id notes

/-- Read again, a page has its comments where they are put down. -/
theorem ofTokens_laid {items : List Item} {notes : List String}
    (hnotes : ∀ t, .comment t ∈ laid notes items → (spell version t).kind = .comment)
    (hwords : ∀ t, .text t ∈ laid notes items → (spell version t).kind ≠ .comment) :
    (Leaf.ofTokens ((laid notes items).filterMap (Piece.token? version))).1.map (·.text) =
        (Item.carried notes items).1 ∧
      (Leaf.ofTokens ((laid notes items).filterMap (Piece.token? version))).2.map Leaf.sheet =
        (slots (Item.carried notes items).2).map fun s => (s.1.getD "", s.2) := by
  induction items generalizing notes with
  | nil =>
    have hlaid : laid notes [] = notePieces 0 notes ++ [] := (List.append_nil _).symm
    rw [hlaid] at hnotes ⊢
    rw [filterMap_token_notes, Leaf.ofTokens_comments (isComment_notes hnotes)]
    exact ⟨(congrArg (List.map _) (List.append_nil _)).trans (map_text_spell version notes), rfl⟩
  | cons item rest ih =>
    cases item with
    | word text remarks =>
      obtain ⟨hlead, hleaves⟩ := ih (fun t ht => hnotes t (List.mem_cons_of_mem _ ht))
        fun t ht => hwords t (List.mem_cons_of_mem _ ht)
      have hcode : Leaf.isComment (spell version text) = false :=
        Leaf.isComment_eq_false_iff.2 (hwords text (List.mem_cons_self ..))
      have htokens : (laid notes (.word text remarks :: rest)).filterMap (Piece.token? version) =
          spell version text :: (laid (notes ++ remarks) rest).filterMap (Piece.token? version) := rfl
      rw [htokens, Leaf.ofTokens_cons, hcode]
      refine ⟨rfl, ?_⟩
      simp only [Bool.false_eq_true, if_false, List.map_cons, hleaves, Item.carried, slots,
        Leaf.sheet, Leaf.remarks, hlead, Option.getD_some, spell_text]
    | omitted remarks => exact ih hnotes hwords
    | space =>
      exact ih (fun t ht => hnotes t (List.mem_cons_of_mem _ ht))
        fun t ht => hwords t (List.mem_cons_of_mem _ ht)
    | line indent noteIndent blank =>
      have htokens : (laid notes (.line indent noteIndent blank :: rest)).filterMap
            (Piece.token? version) =
          notes.map (spell version) ++ (laid [] rest).filterMap (Piece.token? version) := by
        have hlined := filterMap_token_notes version noteIndent notes (.lineStart indent :: laid [] rest)
        cases blank <;> exact hlined
      have hlater : ∀ piece, piece ∈ laid [] rest →
          piece ∈ laid notes (.line indent noteIndent blank :: rest) := by
        intro piece hpiece
        exact List.mem_append_right _ (List.mem_append_right _ (List.mem_cons_of_mem _ hpiece))
      obtain ⟨hlead, hleaves⟩ := ih (fun t ht => hnotes t (hlater _ ht))
        fun t ht => hwords t (hlater _ ht)
      have hremarks : ∀ c ∈ notes.map (spell version), Leaf.isComment c = true :=
        isComment_notes fun t ht => hnotes t (List.mem_append_right _ ht)
      rw [htokens, Leaf.ofTokens_comments hremarks]
      exact ⟨by rw [List.map_append, map_text_spell, hlead]; rfl, hleaves⟩

end

/-! ## 3. Formatting twice -/

/-- As many words as there were before: none is left out. -/
theorem eq_map_some_of_length {α : Type} {fates : List (Option α)}
    (h : (fates.filterMap id).length = fates.length) : fates = (fates.filterMap id).map some := by
  induction fates with
  | nil => rfl
  | cons fate' rest ih =>
    cases fate' with
    | none =>
      have hle := List.length_filterMap_le id rest
      have hlength : (rest.filterMap id).length = rest.length + 1 := h
      omega
    | some a => exact congrArg (some a :: ·) (ih (by simpa using h))

theorem length_fates (stack texts : List String) : (fates stack texts).length = texts.length := by
  induction texts generalizing stack with
  | nil => rfl
  | cons text rest ih => exact congrArg (· + 1) (ih _)

section

variable {version : Version} {source text : String} {raw out : List Token} {tree tree' : Block}

/-- The comments of a page are comments. -/
theorem Piece.isRemark_of_mem {pieces : List Piece} (h : Separate pieces) {t : String}
    (ht : .comment t ∈ pieces) : IsRemark t.toList := by
  induction pieces with
  | nil => cases ht
  | cons piece rest ih =>
    rcases List.mem_cons.1 ht with rfl | hlater
    · exact h.1
    · cases piece with
      | text t => exact ih h.2 hlater
      | comment t => exact ih h.2.2 hlater
      | space => exact ih h hlater
      | lineStart indent => exact ih h hlater
      | blank => exact ih h hlater

/-- The leaves of the output, before signs are joined, are the words of the page
with the comments that are put down after them. -/
theorem Reads.ofTokens_output (h : Reads version source raw tree)
    (hout : (keptTokens version out).map Token.bare =
      (piecesOf version raw tree).filterMap (Piece.token? version)) :
    leadOf version out = (Item.carried (leadOf version raw) (split (tree.layout false 0))).1 ∧
      (Leaf.ofTokens (keptTokens version out)).2.map Leaf.sheet =
        (slots (Item.carried (leadOf version raw) (split (tree.layout false 0))).2).map
          fun s => (s.1.getD "", s.2) := by
  have hlaid := @ofTokens_laid version _ _
    (fun t ht => spell_remark (Piece.isRemark_of_mem h.separate ht))
    fun t ht => (h.isCode_text ht).kind_ne.2
  have hpieces : (laid (leadOf version raw) (split (tree.layout false 0))) =
    piecesOf version raw tree := rfl
  rw [hpieces, ← hout, (ofTokens_bare _).1, (ofTokens_bare _).2, List.map_map] at hlaid
  exact hlaid

/-- The words of the output are those of the layout. -/
theorem Reads.wordsOf_output (h : Reads version source raw tree)
    (hout : (keptTokens version out).map Token.bare =
      (piecesOf version raw tree).filterMap (Piece.token? version)) :
    wordsOf version out = Item.texts (tree.layout false 0) := by
  have hsheets := congrArg (List.map Prod.fst) (h.ofTokens_output hout).2
  rw [List.map_map, List.map_map] at hsheets
  have hwords : (slots (Item.carried (leadOf version raw) (split (tree.layout false 0))).2).map
      (fun s => s.1.getD "") = Item.texts (tree.layout false 0) := by
    have hslots := congrArg (List.map (Option.getD · ""))
      (@Item.slots_carried (split (tree.layout false 0)) (leadOf version raw))
    rw [← Item.texts_eq, List.map_map, List.map_map] at hslots
    exact hslots.trans (List.map_id _)
  exact hsheets.trans hwords

/-- Another tree for the output that looks the same puts down the same page. -/
theorem Reads.piecesOf_output (h : Reads version source raw tree)
    (h' : Reads version (printed version raw tree) out tree')
    (hout : (keptTokens version out).map Token.bare =
      (piecesOf version raw tree).filterMap (Piece.token? version))
    (hflat : flat (tree'.layout false 0) = flat (tree.layout false 0)) :
    piecesOf version out tree' = piecesOf version raw tree := by
  obtain ⟨hlead, hsheets⟩ := h.ofTokens_output hout
  obtain ⟨hremarks, hfates⟩ := h'.slots_eq
  -- the output has no separator to leave out
  have hkept : fates [] (wordsOf version out) = (Item.texts (tree.layout false 0)).map some := by
    have hwords : (fates [] (wordsOf version out)).filterMap id = Item.texts (tree.layout false 0) := by
      have hbare : ∀ tree : Block, (Item.texts (tree.layout false 0)).map some =
          (slots (flat (tree.layout false 0))).map Prod.fst := by
        intro tree
        rw [← Item.bare_split, Item.slots_bare, Item.texts_eq]
      have hsome : (Item.texts (tree'.layout false 0)).map some =
          (Item.texts (tree.layout false 0)).map some := by
        rw [hbare, hbare, hflat]
      rw [← hfates, ← Item.texts_eq]
      exact List.map_injective_iff.2 (fun _ _ => Option.some.inj) hsome
    rw [← hwords]
    refine eq_map_some_of_length ?_
    rw [hwords, length_fates, h.wordsOf_output hout]
  have hsome : ∀ {items : List Item} {words : List String},
      (slots items).map Prod.fst = words.map some → ∀ s ∈ slots items, s.1.isSome = true := by
    intro items words hall s hs
    have hmem : s.1 ∈ words.map some := hall ▸ List.mem_map_of_mem hs
    obtain ⟨word, -, hword⟩ := List.mem_map.1 hmem
    rw [← hword]
    rfl
  have hitems : split (tree'.layout false 0) =
      (Item.carried (leadOf version raw) (split (tree.layout false 0))).2 := by
    rw [← Item.refill_bare (hsome (hfates.trans hkept)), ← Item.refill_bare (hsome Item.slots_carried),
      Item.bare_carried, Item.bare_split, Item.bare_split, hflat, hremarks]
    have hnotes := congrArg (List.map Prod.snd) hsheets
    rw [List.map_map, List.map_map] at hnotes
    exact congrArg _ hnotes
  rw [piecesOf, hlead, hitems, Item.laid_carried (Item.linesBegin_split h.apart)]
  rfl

/-- Formatting is idempotent: a formatted text is formatted to itself. -/
theorem format_format (h : format version source = .ok text) : format version text = .ok text := by
  obtain ⟨raw, tree, hreads, rfl⟩ := format_eq_ok_iff.1 h
  obtain ⟨out, htokens, haccepted, hout⟩ := hreads.output
  have hlex : ∀ t ∈ keptTokens version out, t.Lexical version :=
    keptTokens_lexical (isLexeme_of_tokenize htokens) haccepted
  have hspelled : Spelled version true (worded true tree.leaves (tree.layout false 0))
      (Leaf.ofTokens (joinSigns true (keptTokens version out))).2 := by
    have hall := @spelled_joinSigns _ true _ hlex
    rwa [show (Leaf.ofTokens (keptTokens version out)).2.map (·.token.text) = _ from
      hreads.wordsOf_output hout] at hall
  obtain ⟨tree', hleaves, hfits, hflat⟩ :=
    Block.reread_program hreads.fits hreads.genuine hspelled
  have hreads' : Reads version (printed version raw tree) out tree' :=
    ⟨htokens, haccepted, hleaves, hfits⟩
  refine format_eq_ok_iff.2 ⟨out, tree', hreads', ?_⟩
  rw [printed, printed, hreads.piecesOf_output hreads' hout hflat]

/-- The comment between a minus and its number goes to the next line, and a second
pass, which joins the two, leaves it there. -/
theorem format_format_sign :
    format 1 "x=- --a\n5 do end" = .ok "x = -5\n--a\ndo\nend\n" ∧
      format 1 "x = -5\n--a\ndo\nend\n" = .ok "x = -5\n--a\ndo\nend\n" := by
  have h : format 1 "x=- --a\n5 do end" = .ok "x = -5\n--a\ndo\nend\n" := by decide +kernel
  exact ⟨h, format_format h⟩

end

end LuaLayout
