/-
LuaLayout.Lexeme.LongBracket — long strings and long comments.

A long bracket opens with two square brackets around equals signs, whose number
is its level, and ends at the first closer of the same level. Nothing inside is
special. A long comment is a long bracket right after two dashes.
-/
import LuaLayout.Lexeme.Basic

namespace LuaLayout.Lexeme

/-- The opener of a level. -/
def longOpener (level : Nat) : List Char := '[' :: List.replicate level '=' ++ ['[']

/-- The closer of a level. -/
def longCloser (level : Nat) : List Char := ']' :: List.replicate level '=' ++ [']']

/-- The level of the opener that the text begins with, and what follows it. -/
def longOpener? : List Char → Option (Nat × List Char)
  | '[' :: rest =>
    match rest.dropWhile (· == '=') with
    | '[' :: body => some ((rest.takeWhile (· == '=')).length, body)
    | _ => none
  | _ => none

theorem longOpener?_eq {text body : List Char} {level : Nat}
    (h : longOpener? text = some (level, body)) : text = longOpener level ++ body := by
  unfold longOpener? at h
  split at h
  · next rest =>
    split at h
    · next hd =>
      cases h
      have hrun := List.takeWhile_append_dropWhile (p := (· == '=')) (l := rest)
      have hall : List.replicate (rest.takeWhile (· == '=')).length '=' =
          rest.takeWhile (· == '=') :=
        (List.eq_replicate_of_mem fun c hc => by
          simpa using List.all_eq_true.1 List.all_takeWhile c hc).symm
      rw [hd] at hrun
      rw [longOpener, hall]
      simp [hrun]
    · cases h
  · cases h

/-- The cut right after the first occurrence of a mark. -/
def cutAfter? (mark : List Char) : List Char → Option Cut
  | [] => if mark.isEmpty then some ([], []) else none
  | c :: rest =>
    if mark.isPrefixOf (c :: rest) then some (mark, (c :: rest).drop mark.length)
    else (cutAfter? mark rest).map (·.prepend [c])

theorem cutAfter?_append {mark text : List Char} {c : Cut} (h : cutAfter? mark text = some c) :
    c.1 ++ c.2 = text := by
  induction text generalizing c with
  | nil =>
    unfold cutAfter? at h
    split at h
    · cases h; rfl
    · cases h
  | cons d rest ih =>
    unfold cutAfter? at h
    split at h
    · next hp =>
      cases h
      obtain ⟨t, ht⟩ := List.isPrefixOf_iff_prefix.1 hp
      simp [← ht]
    · obtain ⟨e, he, rfl⟩ := Option.map_eq_some_iff.1 h
      simp [Cut.prepend, ih he]

/-- A long string. -/
def longString : Reader := fun text =>
  (longOpener? text).map fun (level, body) =>
    match cutAfter? (longCloser level) body with
    | some c => Reading.ofCut (c.prepend (longOpener level))
    | none => .unfinished

theorem longString_of {text : List Char} {r : Reading} (h : longString text = some r) :
    r.Of text := by
  obtain ⟨⟨level, body⟩, ho, rfl⟩ := Option.map_eq_some_iff.1 h
  have htext := longOpener?_eq ho
  simp only
  split
  · next c hc =>
    rw [htext]
    exact Cut.of_prepend (by simp [longOpener]) (cutAfter?_append hc)
  · trivial

/-- A long comment. -/
def longComment : Reader
  | '-' :: '-' :: rest => (longString rest).map (·.prepend ['-', '-'])
  | _ => none

theorem longComment_of {text : List Char} {r : Reading} (h : longComment text = some r) :
    r.Of text := by
  unfold longComment at h
  split at h
  · next rest =>
    obtain ⟨s, hs, rfl⟩ := Option.map_eq_some_iff.1 h
    cases s with
    | unfinished => trivial
    | found body after => exact Cut.of_prepend (c := (body, after)) (by simp) (longString_of hs).2
  · cases h

end LuaLayout.Lexeme
