/-
LuaLayout.Proofs.Format.Folding — a sign joined to its number is not seen.

Reducing joins a number to the minus before it by a look at one earlier token,
while the grammar knows what is unary from the whole. Joined or not, the leaves
of a program spell the same lexemes, and leaves that spell what a tree spells
read as a tree that looks the same. A page is known by what its items look like
and by their slots, that is, by the words and the comments after each of them;
neither depends on where signs were joined. So the text is the same, down to the
places of the comments.
-/
import LuaLayout.Proofs.Format.Idempotent

namespace LuaLayout

open Page
open Item (flat split slots bare)

/-! ## 1. Pages by their look and their slots -/

/-- The pieces of items that look as given and have the given slots. What is left
out gives its comments away at once: only a line could make a difference, and
lines begin with a word. -/
def filled : List String → List Item → List (Option String × List String) → List Piece
  | notes, items, (none, remarks) :: more => filled (notes ++ remarks) items more
  | notes, .word text _ :: rest, (some _, remarks) :: more =>
    .text text :: filled (notes ++ remarks) rest more
  | notes, .space :: rest, more => .space :: filled notes rest more
  | notes, .line indent noteIndent blank :: rest, more =>
    blankPiece blank ++ (notePieces noteIndent notes ++ .lineStart indent :: filled [] rest more)
  | notes, _, _ => notePieces 0 notes

theorem filled_space (notes : List String) (items : List Item)
    (list : List (Option String × List String)) :
    filled notes (.space :: items) list = .space :: filled notes items list := by
  induction list generalizing notes with
  | nil => simp [filled]
  | cons s more ih =>
    obtain ⟨word, remarks⟩ := s
    cases word with
    | none => simpa [filled] using ih (notes ++ remarks)
    | some text => simp [filled]

/-- What is laid is known by the look of the items and by their slots. -/
theorem laid_eq_filled {notes : List String} {items : List Item} (h : Item.LinesBegin items) :
    laid notes items = filled notes (bare items) (slots items) := by
  induction items generalizing notes with
  | nil => simp [laid, bare, slots, filled]
  | cons item rest ih =>
    cases item with
    | word text remarks => simpa [laid, bare, slots, filled] using ih h
    | omitted remarks => simpa [laid, bare, slots, filled] using ih h
    | space =>
      rw [laid, ih h]
      exact (filled_space notes (bare rest) (slots rest)).symm
    | line indent noteIndent blank =>
      -- a word comes next, so the slots go on with one
      obtain ⟨⟨text, remarks, more, rfl⟩, hrest⟩ := h
      rw [laid, ih hrest]
      simp only [bare, slots, filled]

/-! ## 2. Programs that spell the same lexemes -/

section

variable {version : Version} {tokens more : List Token} {tree tree' : Block} {text : String}

/-- The lexemes of leaves are the texts that a tree of them spells. -/
theorem map_fst_lexemesOf (leaves : List Leaf) :
    (lexemesOf leaves).map Prod.fst = leaves.flatMap fun l => unsign l.token.text := by
  rw [lexemesOf, List.map_flatMap]
  simp only [map_fst_splitWord]

/-- Trees that look the same and have the same lexemes put down the same page. -/
theorem Block.Fits.laid_eq (h : tree.Fits none) (h' : tree'.Fits none)
    (hg : AllGenuine version tree.leaves) (hg' : AllGenuine version tree'.leaves)
    (hflat : flat (tree'.layout false 0) = flat (tree.layout false 0))
    (hlexemes : lexemesOf tree'.leaves = lexemesOf tree.leaves) (notes : List String) :
    laid notes (split (tree'.layout false 0)) = laid notes (split (tree.layout false 0)) := by
  -- both lists of slots are the fates of the lexemes with their comments
  have hslots : ∀ {tree : Block}, tree.Fits none → AllGenuine version tree.leaves →
      (slots (split (tree.layout false 0))).map Prod.snd = (lexemesOf tree.leaves).map Prod.snd ∧
        (slots (split (tree.layout false 0))).map Prod.fst =
          fates [] ((lexemesOf tree.leaves).map Prod.fst) := by
    intro tree h hg
    have hsettles := h.settles_program hg
    rw [slots_split]
    exact split_fates hg hsettles.remarks hsettles.fates
  obtain ⟨hremarks, hfates⟩ := hslots h hg
  obtain ⟨hremarks', hfates'⟩ := hslots h' hg'
  have heq : slots (split (tree'.layout false 0)) = slots (split (tree.layout false 0)) := by
    rw [List.zip_of_prod hfates' hremarks', List.zip_of_prod hfates hremarks, hlexemes]
  rw [laid_eq_filled (Item.linesBegin_split (h'.apart_program hg')),
    laid_eq_filled (Item.linesBegin_split (h.apart_program hg)), Item.bare_split, Item.bare_split,
    hflat, heq]

/-- Leaves that spell their own lexemes, where a minus at the front is unary. -/
def SpellsOut (version : Version) (leaves : List Leaf) : Prop :=
  Spelled version true ((lexemesOf leaves).map Prod.fst) leaves

/-- Leaves spell their lexemes where signs are joined. -/
theorem spellsOut_joinSigns (hlex : ∀ u ∈ tokens, u.Lexical version) :
    SpellsOut version (Leaf.ofTokens (joinSigns true tokens)).2 := by
  have hlexemes : lexemesOf (Leaf.ofTokens (joinSigns true tokens)).2 = _ :=
    (ofTokens_joinSigns hlex).2
  have htexts : ((Leaf.ofTokens tokens).2.map Leaf.sheet).map Prod.fst =
      (Leaf.ofTokens tokens).2.map (·.token.text) := List.map_map
  rw [SpellsOut, hlexemes, htexts]
  exact spelled_joinSigns hlex

/-- Lexemes by themselves are the lexemes of their leaves. -/
theorem lexemesOf_lexical (hlex : ∀ u ∈ tokens, u.Lexical version) :
    lexemesOf (Leaf.ofTokens tokens).2 = (Leaf.ofTokens tokens).2.map Leaf.sheet := by
  have hplain : ∀ l ∈ (Leaf.ofTokens tokens).2, splitWord l.token.text l.remarks = [l.sheet] := by
    intro l hl
    obtain ⟨⟨htoken, hkind⟩, -⟩ := Leaf.of_mem_leaves hl
    exact splitWord_of_plain ((hlex _ htoken).unsign_eq hkind) l.remarks
  rw [lexemesOf, List.flatMap_congr hplain, ← List.map_eq_flatMap]

/-- Leaves spell their lexemes where no sign is joined. -/
theorem spellsOut_lexical (hlex : ∀ u ∈ tokens, u.Lexical version) :
    SpellsOut version (Leaf.ofTokens tokens).2 := by
  have hplain : ∀ l ∈ (Leaf.ofTokens tokens).2,
      l.token.Genuine version ∧ l.token.bare = spell version l.token.text := by
    intro l hl
    obtain ⟨⟨htoken, hkind⟩, -⟩ := Leaf.of_mem_leaves hl
    exact (hlex _ htoken).plain hkind
  rw [SpellsOut, lexemesOf_lexical hlex, List.map_map]
  -- whether a minus would be unary plays no part for leaves of one lexeme each
  generalize (Leaf.ofTokens tokens).2 = leaves at hplain
  generalize true = folds
  induction leaves generalizing folds with
  | nil => exact .nil
  | cons l rest ih =>
    obtain ⟨⟨hg, hbare⟩, hrest⟩ := List.forall_mem_cons.1 hplain
    exact .lexeme hg hbare (ih hrest _)

/-- Tokens with the same comments in front and the same lexemes, with the same
comments after each of them, are formatted to the same texts. -/
theorem formatTokens_of_lexemes (hspells : SpellsOut version (Leaf.ofTokens tokens).2)
    (hspells' : SpellsOut version (Leaf.ofTokens more).2)
    (hlead : (Leaf.ofTokens more).1.map (·.text) = (Leaf.ofTokens tokens).1.map (·.text))
    (hlexemes : lexemesOf (Leaf.ofTokens more).2 = lexemesOf (Leaf.ofTokens tokens).2)
    (h : formatTokens .program tokens = .ok text) : formatTokens .program more = .ok text := by
  obtain ⟨tree, hleaves, hfits, rfl⟩ := formatTokens_eq_ok_iff.1 h
  have hg : AllGenuine version tree.leaves := hleaves ▸ hspells.genuine
  have hworded : worded false tree.leaves (tree.layout false 0) =
      (lexemesOf (Leaf.ofTokens more).2).map Prod.fst := by
    rw [hlexemes, hleaves, map_fst_lexemesOf]
    rfl
  rw [SpellsOut, ← hworded] at hspells'
  obtain ⟨tree', hleaves', hfits', hflat⟩ := Block.reread_program hfits hg hspells'
  have hg' : AllGenuine version tree'.leaves := hleaves' ▸ hspells'.genuine
  rw [hleaves, hleaves'] at hlexemes
  refine formatTokens_eq_ok_iff.2 ⟨tree', hleaves', hfits', ?_⟩
  rw [hlead, text_program _ (hfits.begins_program hg), text_program _ (hfits'.begins_program hg'),
    hfits.laid_eq hfits' hg hg' hflat hlexemes]

end

/-! ## 3. Joined and not joined -/

/-- Joining signs is invisible in the formatted text: a program whose tokens are
accepted is formatted from its reduction exactly where it is formatted from the
classified tokens without white space, none of them joined, and to the same
text. -/
theorem folded_format {version : Version} {source : String} {raw classified : List Token}
    (htokens : tokenize source = .ok raw)
    (hclassified : raw.mapM (classify version (Vocabulary.keywords version)) = .ok classified) :
    ∃ reduction, reduce version .whitespace raw = .ok reduction ∧
      ∀ text, formatTokens .program reduction.tokens = .ok text ↔
        formatTokens .program (classified.filter Trim.whitespace.keeps) = .ok text := by
  obtain ⟨haccepted, rfl⟩ := mapM_classify_eq_ok_iff.1 hclassified
  refine ⟨_, reduce_whitespace_eq_ok_iff.2 ⟨haccepted, rfl⟩, fun text => ?_⟩
  have hlex : ∀ t ∈ keptTokens version raw, t.Lexical version :=
    keptTokens_lexical (isLexeme_of_tokenize htokens) haccepted
  have hjoined : lexemesOf (Leaf.ofTokens (joinSigns true (keptTokens version raw))).2 =
      lexemesOf (Leaf.ofTokens (keptTokens version raw)).2 :=
    (ofTokens_joinSigns hlex).2.trans (lexemesOf_lexical hlex).symm
  have hlead := congrArg (List.map Token.text) (@ofTokens_joinSigns _ true _ hlex).1
  constructor
  · exact formatTokens_of_lexemes (spellsOut_joinSigns hlex) (spellsOut_lexical hlex) hlead.symm
      hjoined.symm
  · exact formatTokens_of_lexemes (spellsOut_lexical hlex) (spellsOut_joinSigns hlex) hlead hjoined

/-- The sign of an exponent is joined, and the minus after it stays binary. -/
theorem folded_format_power :
    ∃ raw classified reduction, tokenize "x=2^-3-5" = .ok raw ∧
      raw.mapM (classify 1 (Vocabulary.keywords 1)) = .ok classified ∧
      reduce 1 .whitespace raw = .ok reduction ∧
      reduction.texts = ["x", "=", "2", "^", "-3", "-", "5"] ∧
      formatTokens .program reduction.tokens = .ok "x = 2 ^ -3 - 5\n" ∧
      formatTokens .program (classified.filter Trim.whitespace.keeps) = .ok "x = 2 ^ -3 - 5\n" := by
  have htokens : tokenize "x=2^-3-5" = .ok [⟨.name, "x", ⟨1, 1⟩⟩, ⟨.operator, "=", ⟨1, 2⟩⟩,
      ⟨.number, "2", ⟨1, 3⟩⟩, ⟨.operator, "^", ⟨1, 4⟩⟩, ⟨.operator, "-", ⟨1, 5⟩⟩,
      ⟨.number, "3", ⟨1, 6⟩⟩, ⟨.operator, "-", ⟨1, 7⟩⟩, ⟨.number, "5", ⟨1, 8⟩⟩] := by
    decide +kernel
  have haccepted : ∀ t ∈ [⟨.name, "x", ⟨1, 1⟩⟩, ⟨.operator, "=", ⟨1, 2⟩⟩,
      ⟨.number, "2", ⟨1, 3⟩⟩, ⟨.operator, "^", ⟨1, 4⟩⟩, ⟨.operator, "-", ⟨1, 5⟩⟩,
      ⟨.number, "3", ⟨1, 6⟩⟩, ⟨.operator, "-", ⟨1, 7⟩⟩, (⟨.number, "5", ⟨1, 8⟩⟩ : Token)],
      accepts 1 t.kind t.text = true := by decide +kernel
  have hclassified := mapM_classify_eq_ok_iff.2 ⟨haccepted, rfl⟩
  obtain ⟨reduction, hreduce, hsame⟩ := folded_format htokens hclassified
  obtain ⟨-, hreduction⟩ := reduce_whitespace_eq_ok_iff.1 hreduce
  have htexts : reduction.texts = ["x", "=", "2", "^", "-3", "-", "5"] := by
    rw [hreduction]
    decide +kernel
  have hformat : formatTokens .program reduction.tokens = .ok "x = 2 ^ -3 - 5\n" := by
    rw [hreduction]
    decide +kernel
  exact ⟨_, _, reduction, htokens, hclassified, hreduce, htexts, hformat, (hsame _).1 hformat⟩

end LuaLayout
