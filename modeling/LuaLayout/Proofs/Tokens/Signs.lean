/-
LuaLayout.Proofs.Tokens.Signs — numbers and the signs before them.

Reducing keeps tokens one by one and looks back: a number is joined to the minus
right before it if that is unary. `joinSigns` is the same from the front, with
the one thing it has to know about what came before: whether a minus here would
be unary. A number with its minus is the only token whose text is two lexemes;
`unsign` takes the text apart again.
-/
import LuaLayout.Proofs.Tokens.Ends
import LuaLayout.Tree

namespace LuaLayout

open Lexeme

/-! ## 1. Joining from the front -/

namespace Token

/-- The number with the minus before it. -/
def signed (minus number : Token) : Token :=
  { number with text := "-" ++ number.text, pos := minus.pos }

end Token

/-- A minus after the token is unary; comments are looked through. -/
def foldsPast (folds : Bool) (t : Token) : Bool :=
  if t.kind == .comment then folds else foldsAfter (some t)

/-- Joins numbers to the unary minus right before them; `folds` says whether a
minus at the front is unary. -/
def joinSigns : Bool → List Token → List Token
  | _, [] => []
  | _, [t] => [t]
  | folds, t :: n :: rest =>
    if n.kind == .number && t.isOperator "-" && folds then t.signed n :: joinSigns false rest
    else t :: joinSigns (foldsPast folds t) (n :: rest)

variable {folds : Bool} {t n : Token} {rest tokens : List Token}

/-- Nothing is joined to a token that is no minus. -/
theorem joinSigns_cons (h : t.isOperator "-" = false) :
    joinSigns folds (t :: rest) = t :: joinSigns (foldsPast folds t) rest := by
  cases rest with
  | nil => rfl
  | cons n rest => simp [joinSigns, h]

/-- Nothing is joined where no number follows. -/
theorem joinSigns_cons_of_head (h : ∀ n ∈ rest.head?, n.kind ≠ .number) :
    joinSigns folds (t :: rest) = t :: joinSigns (foldsPast folds t) rest := by
  cases rest with
  | nil => rfl
  | cons n rest => simp [joinSigns, h n rfl]

/-- Nothing is joined to a binary minus. -/
theorem joinSigns_false : joinSigns false (t :: rest) = t :: joinSigns (foldsPast false t) rest := by
  cases rest with
  | nil => rfl
  | cons n rest => simp [joinSigns]

theorem joinSigns_minus (ht : t.isOperator "-" = true) (hn : n.kind = .number) :
    joinSigns true (t :: n :: rest) = t.signed n :: joinSigns false rest := by
  simp [joinSigns, ht, hn]

theorem foldsPast_number (h : t.kind = .number) : foldsPast folds t = false := by
  simp [foldsPast, foldsAfter, h]

/-- What reducing keeps, with the latest tokens on top of it. -/
theorem foldl_push (tokens : List Token) (latest : Token) (before : List Token) (count : Nat) :
    (tokens.foldl Kept.push ⟨latest :: before, count⟩).latest.reverse =
      before.reverse ++
        joinSigns (foldsAfter (before.find? (·.kind != .comment))) (latest :: tokens) := by
  induction tokens generalizing latest before count with
  | nil => simp [joinSigns]
  | cons n rest ih =>
    rw [List.foldl_cons]
    by_cases h : (n.kind == .number && latest.isOperator "-" &&
        foldsAfter (before.find? (·.kind != .comment))) = true
    · have hpush : Kept.push ⟨latest :: before, count⟩ n = ⟨latest.signed n :: before, count + 1⟩ := by
        simp only [Kept.push]
        rw [if_pos h]
        rfl
      simp only [Bool.and_eq_true, beq_iff_eq] at h
      have hkind : (latest.signed n).kind = .number := h.1.1
      have hsymbol : (latest.signed n).isOperator "-" = false := by simp [Token.isOperator, hkind]
      rw [hpush, ih, joinSigns_cons hsymbol, foldsPast_number hkind]
      simp [joinSigns, h]
    · have hpush : Kept.push ⟨latest :: before, count⟩ n = ⟨n :: latest :: before, count⟩ := by
        simp only [Kept.push]
        rw [if_neg h]
      rw [hpush, ih, joinSigns, if_neg h, List.reverse_cons, List.append_assoc, List.find?_cons]
      simp only [foldsPast, bne]
      cases latest.kind == .comment <;> rfl

/-- Reducing joins signs from the front. -/
theorem push_eq_joinSigns (tokens : List Token) :
    (tokens.foldl Kept.push Kept.empty).latest.reverse = joinSigns true tokens := by
  cases tokens with
  | nil => rfl
  | cons t rest => exact (foldl_push rest t [] 0).trans rfl

/-! ## 2. Taking signs off again -/

/-- The lexemes of a text: a minus before a number is one of its own. -/
def unsign (text : String) : List String :=
  match text.toList with
  | '-' :: d :: rest => if beginsNumber d then ["-", String.ofList (d :: rest)] else [text]
  | _ => [text]

theorem unsign_minus {number : String} {d : Char} {tail : List Char}
    (h : number.toList = d :: tail) (hd : beginsNumber d = true) :
    unsign ("-" ++ number) = ["-", number] := by
  have htext : ("-" ++ number).toList = '-' :: d :: tail := by rw [String.toList_append, h]; rfl
  simp only [unsign, htext, hd, if_true]
  rw [← h, String.ofList_toList]

theorem unsign_of_head {text : String} (h : ∀ d ∈ text.toList.head?, d ≠ '-') :
    unsign text = [text] := by
  unfold unsign
  split
  · next d rest heq => exact absurd rfl (h '-' (by simp [heq]))
  · rfl

/-- An operator is never taken apart. -/
theorem unsign_operator {text : String} (h : IsLexeme .operator text.toList) :
    unsign text = [text] := by
  have hops : ∀ op ∈ symbols, unsign (String.ofList op) = [String.ofList op] := by decide
  have hself := hops text.toList (isLexeme_operator.1 h)
  rwa [String.ofList_toList] at hself

/-- A lexeme of the grammar is never taken apart. -/
theorem unsign_code {kind : TokenKind} {text : String} (hcode : kind.isCode = true)
    (h : IsLexeme kind text.toList) : unsign text = [text] := by
  rcases TokenKind.isCode_cases hcode with rfl | rfl | hnumeral | hquotation
  · obtain ⟨d, rest, hd, hstart, -⟩ := h
    refine unsign_of_head ?_
    rw [hd]
    rintro x ⟨⟩ rfl
    exact absurd hstart (by decide)
  · exact unsign_operator h
  · obtain ⟨d, rest, hd, hbegins⟩ := numeral_starts hnumeral h
    refine unsign_of_head ?_
    rw [hd]
    rintro x ⟨⟩ rfl
    exact absurd hbegins (by decide)
  · obtain ⟨d, rest, hd, hquote⟩ := quotation_starts hquotation h
    refine unsign_of_head ?_
    rw [hd]
    rintro x ⟨⟩ rfl
    exact absurd hquote (by decide)

end LuaLayout
