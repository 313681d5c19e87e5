/-
LuaLayout.Proofs.Layout.Gaps — items whose words stay apart.

`Apart` says of items that each word ends before the first character of what
follows it, and that spaces and line starts stand before something visible.
Comments take no part in this; they are put down between lines, where every
word ends. What the layout writes between the words of a tree is checked here
word by word: symbols, keywords, names in a row.
-/
import LuaLayout.Session
import LuaLayout.Proofs.Parser.Expressions
import LuaLayout.Proofs.Tokens.Ends

namespace LuaLayout

open Lexeme

/-! ## 1. Items that stay apart -/

namespace Item

/-- The first character that items put down; after the last one a line ends. -/
def opening : List Item → Char
  | [] => '\n'
  | .word chars _ :: _ => chars.toList.headD '\n'
  | .omitted _ :: rest => opening rest
  | .space :: _ => ' '
  | .line _ _ _ :: _ => '\n'

/-- The items begin with a word whose first character can be seen. -/
def Visible : List Item → Prop
  | .word chars _ :: _ => ∃ d tail, chars.toList = d :: tail ∧ Text.isBlank d = false
  | _ => False

/-- Every word ends before what follows it, and every gap stands before a word. -/
def Apart : List Item → Prop
  | [] => True
  | .word chars _ :: rest => Ends chars.toList (opening rest) ∧ Apart rest
  | .omitted _ :: rest => Apart rest
  | .space :: rest => Visible rest ∧ Apart rest
  | .line _ _ _ :: rest => Visible rest ∧ Apart rest

theorem Visible.begins {items : List Item} (h : Visible items) :
    ∃ text remarks rest, items = .word text remarks :: rest := by
  cases items with
  | nil => exact h.elim
  | cons item rest =>
    cases item with
    | word text remarks => exact ⟨text, remarks, rest, rfl⟩
    | omitted remarks => exact h.elim
    | space => exact h.elim
    | line indent noteIndent blank => exact h.elim

theorem opening_word {chars : String} {remarks : List String} {rest : List Item} {d : Char}
    {tail : List Char} (h : chars.toList = d :: tail) :
    opening (.word chars remarks :: rest) = d := by
  simp [opening, h]

theorem apart_spaceIf {b : Bool} {rest : List Item} (hvisible : Visible rest) (h : Apart rest) :
    Apart (spaceIf b ++ rest) := by
  cases b with
  | false => exact h
  | true => exact ⟨hvisible, h⟩

end Item

open Item

theorem stops_space : Stops ' ' := ⟨by decide, by decide, by decide⟩

theorem stops_spaceIf {b : Bool} {rest : List Item} (h : Stops (opening rest)) :
    Stops (opening (spaceIf b ++ rest)) := by
  cases b with
  | false => exact h
  | true => exact stops_space

theorem stops_line : Stops '\n' := ⟨by decide, by decide, by decide⟩

theorem stops_comma : Stops ',' := ⟨by decide, by decide, by decide⟩

theorem stops_round : Stops ')' := ⟨by decide, by decide, by decide⟩

theorem stops_square : Stops ']' := ⟨by decide, by decide, by decide⟩

/-! ## 2. How expressions begin -/

section

variable {version : Version} {t : Token}

/-- The characters that an expression can begin with. -/
theorem Token.Genuine.expr_starts (h : t.Genuine version) (hs : t.startsExpr = true) :
    ∃ d rest, t.text.toList = d :: rest ∧ (d ∈ ['-', '#', '~', '\x7b', '('] ∨
      Text.isNameStart d = true ∨ beginsNumber d = true ∨
      t.kind = .string ∧ (d = '"' ∨ d = '\'' ∨ d = '[')) := by
  simp only [startsExpr, Parser.isUnary, Parser.isLiteral, Powers.unaryOperators, Bool.or_eq_true,
    Bool.and_eq_true, isOperator_iff, isKeyword_iff, beq_iff_eq, List.contains_iff_mem,
    List.mem_cons, List.not_mem_nil, or_false] at hs
  rcases hs with ((((⟨-, hs⟩ | (hk | hk) | hk) | ⟨-, hs⟩) | ⟨-, hs⟩) | ⟨-, hs⟩) | hk
  · rcases hs with hs | hs | hs | hs
    · exact ⟨'-', [], by rw [hs]; rfl, .inl (by decide)⟩
    · exact ⟨'#', [], by rw [hs]; rfl, .inl (by decide)⟩
    · exact ⟨'n', ['o', 't'], by rw [hs]; rfl, .inr (.inl (by decide))⟩
    · exact ⟨'~', [], by rw [hs]; rfl, .inl (by decide)⟩
  · obtain ⟨d, rest, hd, hnumber | rfl⟩ := h.number_starts hk
    · exact ⟨d, rest, hd, .inr (.inr (.inl hnumber))⟩
    · exact ⟨'-', rest, hd, .inl (by decide)⟩
  · obtain ⟨d, rest, hd, hquote⟩ := h.string_starts hk
    exact ⟨d, rest, hd, .inr (.inr (.inr ⟨hk, hquote⟩))⟩
  · obtain ⟨d, rest, hd, hname | rfl⟩ := h.constant_starts hk
    · exact ⟨d, rest, hd, .inr (.inl hname)⟩
    · exact ⟨'.', rest, hd, .inr (.inr (.inl (by decide)))⟩
  · exact ⟨'\x7b', [], by rw [hs]; rfl, .inl (by decide)⟩
  · exact ⟨'f', "unction".toList, by rw [hs]; rfl, .inr (.inl (by decide))⟩
  · exact ⟨'(', [], by rw [hs]; rfl, .inl (by decide)⟩
  · obtain ⟨d, rest, hd, hname⟩ := h.name_starts (.inl hk)
    exact ⟨d, rest, hd, .inr (.inl hname)⟩

/-- The first character of an expression makes no operator longer. -/
theorem Token.Genuine.expr_opens (h : t.Genuine version) (hs : t.startsExpr = true) :
    ∃ d rest, t.text.toList = d :: rest ∧ d ≠ '=' ∧ d ≠ '\n' ∧ (d = '[' → t.kind = .string) := by
  obtain ⟨d, rest, hd, hsymbol | hname | hnumber | ⟨hk, hquote⟩⟩ := h.expr_starts hs
  · have hchars : ['-', '#', '~', '\x7b', '('].all
        (fun x => x != '=' && x != '\n' && x != '[') = true := by decide
    have hother := List.all_eq_true.1 hchars d hsymbol
    simp only [Bool.and_eq_true, bne_iff_ne] at hother
    exact ⟨d, rest, hd, hother.1.1, hother.1.2, fun h => absurd h hother.2⟩
  · refine ⟨d, rest, hd, ?_, ?_, ?_⟩ <;> (rintro rfl; exact absurd hname (by decide))
  · refine ⟨d, rest, hd, ?_, ?_, ?_⟩ <;> (rintro rfl; exact absurd hnumber (by decide))
  · refine ⟨d, rest, hd, ?_, ?_, fun _ => hk⟩ <;> (rintro rfl; exact absurd hquote (by decide))

end

/-! ## 3. How parts of a tree begin on the page -/

/-- The items begin with a word of the given text. -/
def BeginsWith (text : String) (items : List Item) : Prop :=
  ∃ remarks rest, items = .word text remarks :: rest

section

variable {next : Option Token} (indent : Int)

theorem Table.begins {t : Table} (h : t.Fits) : BeginsWith t.head.token.text (t.layout false indent) := by
  cases t with
  | empty opening closing =>
    have htext : opening.token.text = "\x7b" := h.1
    exact ⟨_, _, by rw [Table.layout, Table.head, htext]; rfl⟩
  | fields opening first more trailing closing =>
    have htext : opening.token.text = "\x7b" := h.1
    exact ⟨_, _, by rw [Table.layout, Table.head, htext]; rfl⟩

theorem Access.begins {a : Access} (h : a.Fits next) :
    BeginsWith a.head.token.text (a.layout false indent) := by
  obtain ⟨root, suffixes⟩ := a
  cases root with
  | name name => exact ⟨_, _, rfl⟩
  | group opening inner closing =>
    have htext := (Token.isOperator_iff.1 h.1.1).2
    exact ⟨_, _, by rw [Access.layout, Root.layout, Access.head, htext]; rfl⟩

theorem Operand.begins {o : Operand} (h : o.Fits next) :
    BeginsWith o.head.token.text (o.layout false indent) := by
  cases o with
  | unary operator argument => exact ⟨_, _, rfl⟩
  | literal value => exact ⟨_, _, rfl⟩
  | table fields => exact Table.begins indent h.2
  | function word body =>
    have htext := (Token.isKeyword_iff.1 h.1).2
    exact ⟨_, _, by rw [Operand.layout, Operand.head, htext]; rfl⟩
  | access path => exact Access.begins indent h

theorem Expr.begins {e : Expr} {limit : Int} (h : e.Fits limit next) :
    BeginsWith e.head.token.text (e.layout false indent) := by
  obtain ⟨operand, operations⟩ := e
  obtain ⟨remarks, rest, heq⟩ := Operand.begins indent h.1
  exact ⟨remarks, rest ++ operationsLayout false indent operations, by
    simp [Expr.layout, showGroup, heq, Expr.head]⟩

theorem Exprs.begins {es : Exprs} (h : es.Fits next) :
    ∃ text, BeginsWith text (es.layout false indent) := by
  obtain ⟨first, more⟩ := es
  obtain ⟨remarks, rest, heq⟩ := Expr.begins indent h.1
  exact ⟨first.head.token.text, remarks, rest ++ commaExprsLayout false indent more, by
    simp [Exprs.layout, heq]⟩

end

/-! ## 4. Fixed words -/

theorem ends_fixed {w : List Char} {c : Char} (h : isWord w = true)
    (hc : Text.isNamePart c = false) : Ends w c :=
  ends_name (isLexeme_of_isWord h) hc

/-- The symbol that closes a mark, before what can come after one. -/
theorem ends_mark {c : Char} (h : c = ',' ∨ c = ' ' ∨ c = '\n') : Ends ['>'] c := by
  have hlex : IsLexeme .operator ['>'] := isLexeme_operator.2 (by decide)
  rcases h with rfl | rfl | rfl
  · exact ends_operator hlex ⟨parts_of_extends (by decide), nofun, nofun, nofun⟩ nofun
  · exact ends_operator_space hlex
  · exact ends_operator hlex (parts_of_other (by decide) (by decide)) nofun

/-- A minus before an operand that begins with none. -/
theorem ends_minus {c : Char} (hminus : c ≠ '-') (hline : c ≠ '\n') : Ends ['-'] c :=
  ends_operator (isLexeme_operator.2 (by decide)) (parts_minus hminus) fun _ => hline

/-- A tilde before an operand, which begins with no equals sign. -/
theorem ends_tilde {c : Char} (hequals : c ≠ '=') : Ends ['~'] c := by
  have hlex : IsLexeme .operator ['~'] := isLexeme_operator.2 (by decide)
  have hnone : ∀ op ∈ symbols, ['~'] <+: op → op = ['~'] ∨ op = ['~', '='] := by decide
  refine ends_operator hlex ⟨parts_of_extends ?_, nofun, nofun, nofun⟩ nofun
  intro op hop hfront
  rcases hnone op hop ((List.prefix_append ['~'] [c]).trans hfront) with heq | heq
  · have hlen := hfront.length_le
    rw [heq] at hlen
    simp at hlen
  · rw [heq] at hfront
    simp [hequals] at hfront

/-- The tokens of some leaves are tokens of the grammar. -/
def AllGenuine (version : Version) (leaves : List Leaf) : Prop :=
  ∀ l ∈ leaves, l.token.Genuine version

namespace AllGenuine

variable {version : Version} {l : Leaf} {xs ys : List Leaf}

theorem cons_iff : AllGenuine version (l :: xs) ↔ l.token.Genuine version ∧ AllGenuine version xs :=
  List.forall_mem_cons

theorem append_iff :
    AllGenuine version (xs ++ ys) ↔ AllGenuine version xs ∧ AllGenuine version ys :=
  List.forall_mem_append

end AllGenuine

/-! ## 5. Names in a row -/

section

variable {version : Version} {rest : List Item}

/-- A leaf that ends before whatever goes on with no name. -/
def Leaf.EndsNames (l : Leaf) : Prop :=
  ∀ c, Text.isNamePart c = false → Ends l.token.text.toList c

theorem Leaf.IsName.endsNames {l : Leaf} (h : l.IsName) (hg : l.token.Genuine version) :
    l.EndsNames :=
  fun _ hc => hg.ends_name (.inl h) hc

theorem Leaf.EndsNames.visible {l : Leaf} (h : l.EndsNames) :
    ∃ d tail, l.token.text.toList = d :: tail ∧ Text.isBlank d = false :=
  (h ' ' (by decide)).starts

theorem commaNames_apart {more : List (Leaf × Leaf)} (h : ∀ p ∈ more, p.2.EndsNames)
    (hc : Text.isNamePart (opening rest) = false) (hrest : Apart rest) :
    Text.isNamePart (opening (commaNames more ++ rest)) = false ∧
      Apart (commaNames more ++ rest) := by
  induction more with
  | nil => exact ⟨hc, hrest⟩
  | cons p more ih =>
    obtain ⟨hname, hmore⟩ := List.forall_mem_cons.1 h
    obtain ⟨hopening, hapart⟩ := ih hmore
    have hcomma : Text.isNamePart ',' = false := by decide
    exact ⟨hcomma, ends_lone (by decide) _, hname.visible, hname _ hopening, hapart⟩

theorem Leaf.NamesFit.endsNames {separator : String} {more : List (Leaf × Leaf)}
    (h : Leaf.NamesFit separator more) (hg : AllGenuine version (Leaf.ofPairs Leaf.alone more)) :
    ∀ p ∈ more, p.2.EndsNames := by
  induction more with
  | nil => simp
  | cons p more ih =>
    obtain ⟨hname, hmore⟩ := List.forall_mem_cons.1 h
    simp only [Leaf.ofPairs, List.cons_append, AllGenuine.cons_iff, Leaf.alone,
      List.nil_append] at hg
    exact List.forall_mem_cons.2 ⟨hname.2.endsNames hg.2.1, ih hmore hg.2.2⟩

theorem Parameters.MoreFit.endsNames : ∀ {more : List (Leaf × Leaf)}, MoreFit more →
    AllGenuine version (Leaf.ofPairs Leaf.alone more) → ∀ p ∈ more, p.2.EndsNames
  | [], _, _ => by simp
  | [(comma, last)], h, hg => by
    obtain ⟨-, hlast, -⟩ : _ ∧ last.token.Genuine version ∧ _ := by
      simpa [Leaf.ofPairs, AllGenuine.cons_iff] using hg
    rw [List.forall_mem_singleton]
    rcases h.2 with hname | hdots
    · exact hname.endsNames hlast
    · simp only [Parser.isEllipsis, Bool.and_eq_true, beq_iff_eq] at hdots
      exact fun c hc => hlast.ends_constant hdots.1 hc
  | (comma, name) :: p :: more, h, hg => by
    obtain ⟨-, hname, hmore⟩ := h
    simp only [Leaf.ofPairs, List.cons_append, AllGenuine.cons_iff, Leaf.alone,
      List.nil_append] at hg
    rw [List.forall_mem_cons]
    refine ⟨hname.endsNames hg.2.1, Parameters.MoreFit.endsNames hmore ?_⟩
    simpa [Leaf.ofPairs, AllGenuine.cons_iff] using hg.2.2

theorem Parameters.apart {p : Parameters} (h : p.Fits) (hg : AllGenuine version p.leaves)
    (hrest : Apart rest) : Apart (p.layout ++ rest) := by
  cases p with
  | none opening closing =>
    exact ⟨ends_lone (by decide) _, ends_lone (by decide) _, hrest⟩
  | some opening first more closing =>
    obtain ⟨-, -, -, hfirst⟩ := h
    simp only [Parameters.leaves, List.cons_append, AllGenuine.cons_iff, AllGenuine.append_iff] at hg
    obtain ⟨-, hgfirst, hgmore, -⟩ := hg
    have hends : first.EndsNames ∧ ∀ p ∈ more, p.2.EndsNames := by
      rcases hfirst with ⟨hdots, rfl⟩ | ⟨hname, hmore⟩
      · simp only [Parser.isEllipsis, Bool.and_eq_true, beq_iff_eq] at hdots
        exact ⟨fun c hc => hgfirst.ends_constant hdots.1 hc, by simp⟩
      · exact ⟨hname.endsNames hgfirst, hmore.endsNames hgmore⟩
    have hclose : Apart (closing.wordAs ")" :: rest) := ⟨ends_lone (by decide) _, hrest⟩
    have hround : Text.isNamePart (Item.opening (closing.wordAs ")" :: rest)) = false :=
      show Text.isNamePart ')' = false by decide
    obtain ⟨hopening, hapart⟩ := commaNames_apart hends.2 hround hclose
    simp only [Parameters.layout, List.cons_append, List.append_assoc, List.nil_append]
    exact ⟨ends_lone (by decide) _, hends.1 _ hopening, hapart⟩

/-- The separators of a path of names. -/
theorem isLexeme_path {text : String} (h : text ∈ [".", ":"]) : IsLexeme .operator text.toList := by
  have hpath : ∀ t ∈ [".", ":"], t.toList ∈ symbols := by decide
  exact isLexeme_operator.2 (hpath text h)

/-- Names after points or colons, without spaces. -/
theorem path_apart {separator : String} {path : List (Leaf × Leaf)}
    (hseparator : separator ∈ [".", ":"]) (h : Leaf.NamesFit separator path)
    (hg : AllGenuine version (Leaf.ofPairs Leaf.alone path))
    (hc : Text.isNamePart (opening rest) = false) (hrest : Apart rest) :
    Text.isNamePart (opening (path.flatMap (fun (mark, part) =>
        [mark.wordAs separator, part.word]) ++ rest)) = false ∧
      Apart (path.flatMap (fun (mark, part) => [mark.wordAs separator, part.word]) ++ rest) := by
  have hmark : ∀ text ∈ [".", ":"], ∃ d tail, text.toList = d :: tail ∧
      Text.isNamePart d = false := by
    simp only [List.forall_mem_cons, List.not_mem_nil, false_imp_iff, implies_true, and_true]
    exact ⟨⟨'.', [], rfl, by decide⟩, ⟨':', [], rfl, by decide⟩⟩
  induction path with
  | nil => exact ⟨hc, hrest⟩
  | cons p path ih =>
    obtain ⟨hname, hpath⟩ := List.forall_mem_cons.1 h
    simp only [Leaf.ofPairs, List.cons_append, AllGenuine.cons_iff, Leaf.alone,
      List.nil_append] at hg
    obtain ⟨hnext, hapart⟩ := ih hpath hg.2.2
    obtain ⟨d, tail, hd, hdot⟩ := hmark separator hseparator
    obtain ⟨e, more, he, hstart⟩ := hg.2.1.name_starts (.inl hname.2)
    simp only [List.flatMap_cons, List.cons_append, List.nil_append]
    refine ⟨?_, ?_, hname.2.endsNames hg.2.1 _ hnext, hapart⟩
    · rwa [Leaf.wordAs, opening_word hd]
    · rw [Leaf.word, opening_word he]
      exact ends_operator_name (isLexeme_path hseparator) hstart

/-- What may come after a local name: another one, the values or the next line. -/
def FollowsLocal (c : Char) : Prop := c = ',' ∨ c = ' ' ∨ c = '\n'

theorem FollowsLocal.not_part {c : Char} (h : FollowsLocal c) : Text.isNamePart c = false := by
  rcases h with rfl | rfl | rfl <;> decide

theorem LocalName.apart {n : LocalName} {next : Option Token} (h : n.Fits next)
    (hg : AllGenuine version n.leaves) (hc : FollowsLocal (opening rest)) (hrest : Apart rest) :
    Apart (n.layout ++ rest) := by
  obtain ⟨name, _ | mark⟩ := n
  · exact ⟨h.1.endsNames (hg name (by simp [leaves])) _ hc.not_part, hrest⟩
  · obtain ⟨hname, -, hword, -⟩ := h
    simp only [leaves, Option.map_some, Option.getD_some, Mark.leaves, AllGenuine.cons_iff] at hg
    obtain ⟨hgname, -, hgword, -⟩ := hg
    obtain ⟨d, tail, hd, hstart⟩ := hgword.name_starts (.inl hword)
    have hless : IsLexeme .operator "<".toList := isLexeme_operator.2 (by decide)
    have hopen : Ends "<".toList (opening (mark.word.word :: mark.closing.wordAs ">" :: rest)) := by
      rw [Leaf.word, opening_word hd]
      exact ends_operator_name hless hstart
    exact ⟨hname.endsNames hgname ' ' (by decide), ⟨_, _, rfl, by decide⟩, hopen,
      hword.endsNames hgword '>' (by decide), ends_mark hc, hrest⟩

theorem LocalName.visible {n : LocalName} {next : Option Token} (h : n.Fits next)
    (hg : AllGenuine version n.leaves) : Visible (n.layout ++ rest) :=
  (h.1.endsNames (hg n.name (by simp [leaves]))).visible

theorem LocalName.more_apart {next : Option Token} : ∀ {more : List (Leaf × LocalName)},
    MoreFit next more → AllGenuine version (Leaf.ofPairs leaves more) →
    FollowsLocal (opening rest) → Apart rest →
    FollowsLocal (opening (moreLayout more ++ rest)) ∧ Apart (moreLayout more ++ rest)
  | [], _, _, hc, hrest => ⟨hc, hrest⟩
  | (comma, n) :: more, h, hg, hc, hrest => by
    obtain ⟨-, hn, hmore⟩ := h
    simp only [Leaf.ofPairs, List.cons_append, AllGenuine.cons_iff, AllGenuine.append_iff] at hg
    obtain ⟨-, hgn, hgmore⟩ := hg
    obtain ⟨hnext, hapart⟩ := LocalName.more_apart hmore hgmore hc hrest
    simp only [moreLayout, List.flatMap_cons, List.cons_append, List.append_assoc] at hnext hapart ⊢
    exact ⟨.inl rfl, ends_lone (by decide) _, LocalName.visible hn hgn,
      LocalName.apart hn hgn hnext hapart⟩

end

end LuaLayout
