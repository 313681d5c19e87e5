/-
LuaLayout.Proofs.Grammar.Accepted — the programs that are formatted are those of
the grammar.

A text is formatted where its leaves are those of a block that fits, and such a
block is what the grammar derives. Comments are no leaves; so the grammar is asked
about the tokens without them, and what is said of these holds of a program with
comments, which is read alike.

The grammar does not make the values of a return optional like other parts. They
are left out before the end of the block, a semicolon and a label, and nowhere
else: a return before a break is refused, although no value begins with the word.
-/
import LuaLayout.Proofs.Format.Printed
import LuaLayout.Proofs.Grammar.Derived
import LuaLayout.Proofs.Grammar.Written

namespace LuaLayout

open Grammar (Name rules guardedValues optionalValues)
open Form (rule)

variable {version : Version} {tokens : List Token}

/-! ## 1. Tokens without comments -/

/-- Leaves of the same tokens correspond. -/
theorem correspond_of_token : ∀ {xs ys : List Leaf}, xs.map (·.token) = ys.map (·.token) →
    Leaf.Correspond Eq xs ys := by
  intro xs
  induction xs with
  | nil =>
    intro ys h
    obtain rfl := List.map_eq_nil_iff.1 h.symm
    exact .nil
  | cons l xs ih =>
    intro ys h
    obtain ⟨m, ys, rfl, hm, hys⟩ := List.map_eq_cons_iff.1 h.symm
    exact .cons hm.symm (ih hys.symm)

theorem faithful_eq : Token.Faithful (Eq : Token → Token → Prop) where
  kind h := by rw [h]
  text h := by rw [h]

/-- Tokens without comments are leaves of their own. -/
theorem ofTokens_leaf (h : ∀ t ∈ tokens, Leaf.isComment t = false) :
    Leaf.ofTokens tokens = ([], tokens.map Token.leaf) := by
  induction tokens with
  | nil => rfl
  | cons t rest ih =>
    obtain ⟨ht, hrest⟩ := List.forall_mem_cons.1 h
    rw [Leaf.ofTokens_cons, ih hrest, ht]
    rfl

/-- Comments do not decide whether a program is formatted. -/
theorem formatTokens_filter (tokens : List Token) :
    (∃ text, formatTokens .program tokens = .ok text) ↔
      ∃ text, formatTokens .program (tokens.filter (!Leaf.isComment ·)) = .ok text := by
  have htokens : (Leaf.ofTokens tokens).2.map (·.token) =
      (Leaf.ofTokens (tokens.filter (!Leaf.isComment ·))).2.map (·.token) := by
    rw [Leaf.map_token_ofTokens, Leaf.map_token_ofTokens, List.filter_filter]
    simp
  rcases formatTokens_agree faithful_eq (correspond_of_token htokens) with
    ⟨hok, hok'⟩ | ⟨what, near, near', -, herror, herror'⟩
  · exact ⟨fun _ => hok', fun _ => hok⟩
  · constructor
    · intro ⟨text, htext⟩
      rw [herror] at htext
      cases htext
    · intro ⟨text, htext⟩
      rw [herror'] at htext
      cases htext

/-- Genuine tokens are formatted exactly if they derive from a block. -/
theorem formatTokens_iff_derives (hcode : ∀ t ∈ tokens, Leaf.isComment t = false)
    (hgood : ∀ t ∈ tokens, t.Genuine version) :
    (∃ text, formatTokens .program tokens = .ok text) ↔
      Derives (rules guardedValues) (rule .block) tokens [] := by
  have hleaves := ofTokens_leaf hcode
  constructor
  · intro ⟨text, htext⟩
    obtain ⟨tree, htree, hfits, -⟩ := formatTokens_eq_ok_iff.1 htext
    rw [hleaves] at htree
    have htokens : Leaf.before tree.leaves [] = tokens := by
      rw [← htree, Leaf.before, List.map_map, List.append_nil]
      exact List.map_id tokens
    have hgenuine : AllGenuine version tree.leaves := by
      intro l hl
      rw [← htree] at hl
      obtain ⟨t, ht, rfl⟩ := List.mem_map.1 hl
      exact hgood t ht
    have hwritten : Grammar.Written (rule .block) tree.leaves [] :=
      Block.written tree hfits hgenuine
    rwa [Grammar.Written, htokens] at hwritten
  · intro h
    obtain ⟨tree, htree, hfits⟩ := h.block hgood
    exact ⟨_, formatTokens_eq_ok_iff.2 ⟨tree, by rw [hleaves, htree], hfits, rfl⟩⟩

/-! ## 2. Programs -/

/-- A text that is read and classified is formatted exactly if its tokens without
comments, signs joined to their numbers, derive from a block up to their end. -/
theorem format_iff_derives (version : Version) (source : String) (raw : List Token)
    (reduction : Reduction) (htokens : tokenize source = .ok raw)
    (hreduce : reduce version .whitespace raw = .ok reduction) :
    (∃ text, format version source = .ok text) ↔
      Derives (rules guardedValues) (rule .block)
        (reduction.tokens.filter (!Leaf.isComment ·)) [] := by
  obtain ⟨haccepted, hreduction⟩ := reduce_whitespace_eq_ok_iff.1 hreduce
  have hlex := keptTokens_lexical (isLexeme_of_tokenize htokens) haccepted
  have hcode : ∀ t ∈ reduction.tokens.filter (!Leaf.isComment ·), Leaf.isComment t = false :=
    fun t ht => by simpa using (List.mem_filter.1 ht).2
  have hgood : ∀ t ∈ reduction.tokens.filter (!Leaf.isComment ·), t.Genuine version := by
    intro t ht
    obtain ⟨hmem, hkind⟩ := List.mem_filter.1 ht
    rw [hreduction] at hmem
    rcases genuine_of_mem_joinSigns hlex hmem with ⟨hcomment, -⟩ | ⟨-, hgenuine⟩
    · exact absurd hcomment (Leaf.isComment_eq_false_iff.1 (hcode t ht))
    · exact hgenuine
  rw [format_eq, htokens]
  simp only [bind, Except.bind, hreduce]
  rw [formatTokens_filter, formatTokens_iff_derives hcode hgood]

/-- A program with a sign and a comment. -/
theorem format_iff_derives_sign :
    ∃ raw reduction, tokenize "x=- 5--a" = .ok raw ∧ reduce 1 .whitespace raw = .ok reduction ∧
      (reduction.tokens.filter (!Leaf.isComment ·)).map (·.text) = ["x", "=", "-5"] ∧
      (∃ text, format 1 "x=- 5--a" = .ok text) ∧
      Derives (rules guardedValues) (rule .block)
        (reduction.tokens.filter (!Leaf.isComment ·)) [] := by
  have htokens : tokenize "x=- 5--a" = .ok [⟨.name, "x", ⟨1, 1⟩⟩, ⟨.operator, "=", ⟨1, 2⟩⟩,
      ⟨.operator, "-", ⟨1, 3⟩⟩, ⟨.whitespace, " ", ⟨1, 4⟩⟩, ⟨.number, "5", ⟨1, 5⟩⟩,
      ⟨.lineComment, "--a", ⟨1, 6⟩⟩] := by decide +kernel
  have hreduce : reduce 1 .whitespace [⟨.name, "x", ⟨1, 1⟩⟩, ⟨.operator, "=", ⟨1, 2⟩⟩,
      ⟨.operator, "-", ⟨1, 3⟩⟩, ⟨.whitespace, " ", ⟨1, 4⟩⟩, ⟨.number, "5", ⟨1, 5⟩⟩,
      ⟨.lineComment, "--a", ⟨1, 6⟩⟩] =
        .ok ⟨[⟨.name, "x", ⟨1, 1⟩⟩, ⟨.operator, "=", ⟨1, 2⟩⟩, ⟨.number, "-5", ⟨1, 3⟩⟩,
          ⟨.comment, "--a", ⟨1, 6⟩⟩], 1⟩ := by decide +kernel
  have hformat : format 1 "x=- 5--a" = .ok "x = -5\n--a\n" := by decide +kernel
  exact ⟨_, _, htokens, hreduce, rfl, ⟨_, hformat⟩,
    (format_iff_derives 1 _ _ _ htokens hreduce).1 ⟨_, hformat⟩⟩

/-- If the values of a return were optional like other parts, a return before a
break would be a program; it is not. -/
theorem optionalValues_too_wide :
    ∃ raw reduction, tokenize "return break" = .ok raw ∧
      reduce 1 .whitespace raw = .ok reduction ∧
      Derives (rules optionalValues) (rule .block)
        (reduction.tokens.filter (!Leaf.isComment ·)) [] ∧
      ¬ ∃ text, format 1 "return break" = .ok text := by
  have htokens : tokenize "return break" = .ok [⟨.name, "return", ⟨1, 1⟩⟩,
      ⟨.whitespace, " ", ⟨1, 7⟩⟩, ⟨.name, "break", ⟨1, 8⟩⟩] := by decide +kernel
  have hreduce : reduce 1 .whitespace [⟨.name, "return", ⟨1, 1⟩⟩, ⟨.whitespace, " ", ⟨1, 7⟩⟩,
      ⟨.name, "break", ⟨1, 8⟩⟩] =
        .ok ⟨[⟨.keyword, "return", ⟨1, 1⟩⟩, ⟨.keyword, "break", ⟨1, 8⟩⟩], 0⟩ := by decide +kernel
  refine ⟨_, _, htokens, hreduce, ?_, ?_⟩
  · -- No value begins with the break, so there are none; and the break is a statement.
    have hvalues : ¬ Opens (rules optionalValues) 1 (rule .explist) [⟨.keyword, "break", ⟨1, 8⟩⟩] :=
      (Grammar.begins _).not_opens rfl fun x hx => by
        obtain rfl := Option.some.inj hx
        decide
    have hend : ¬ Opens (rules optionalValues) 1 (rule .stat) [] :=
      (Grammar.begins _).not_opens rfl fun x hx => by cases hx
    have hreturn : Token.isKeyword ⟨.keyword, "return", ⟨1, 1⟩⟩ "return" = true := by decide
    have hbreak : Token.isKeyword ⟨.keyword, "break", ⟨1, 8⟩⟩ "break" = true := by decide
    refine .rule (.more (.rule (.oneOf_at 13 rfl ?_))
      (.more (.rule (.oneOf_at 1 rfl (.token hbreak))) (.done hend)))
    exact .inOrder_token hreturn (.inOrder_last (.right (.absent hvalues)))
  · have hfails : (format 1 "return break").toOption = none := by decide +kernel
    intro ⟨text, htext⟩
    rw [htext] at hfails
    cases hfails

end LuaLayout
