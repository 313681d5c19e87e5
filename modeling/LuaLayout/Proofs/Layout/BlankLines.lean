/-
LuaLayout.Proofs.Layout.BlankLines — a blank line after each declared function.

The layout is told by a statement whether it declares a function, and leaves a
blank line before the next one. `Blanks` says the same of the words alone: they
are followed with the scope that they lead to, and a line start leaves a blank
line exactly where a declared function has just been closed and the next word
begins a statement.
-/
import LuaLayout.Proofs.Layout.Walk

namespace LuaLayout

namespace Item

/-- A blank line is left exactly where a declared function has been closed and
the next word begins a statement, and nothing else comes right after it. -/
def Blanks (version : Version) : Scope → List Item → Prop
  | _, [] => True
  | s, .word text _ :: rest => s.declared = false ∧ Blanks version (s.read version text) rest
  | s, .omitted _ :: rest => Blanks version s rest
  | s, .space :: rest => s.declared = false ∧ Blanks version s.pass rest
  | s, .line _ _ blank :: rest =>
    blank = (s.declared && startsStatement (texts rest).head?) ∧ Blanks version s.pass rest

namespace Blanks

variable {version : Version} {named : List Bool} {opened known : Bool} {text : String}
  {remarks : List String} {items : List Item}

/-- A word that opens and closes nothing. -/
theorem quiet (hquiet : text ∉ openers ++ closers) (h : Blanks version ⟨named, false, false⟩ items) :
    Blanks version ⟨named, false, false⟩ (.word text remarks :: items) := by
  refine ⟨rfl, ?_⟩
  rwa [Scope.read_quiet hquiet]

/-- The bracket before parameters, which is no name. -/
theorem parameters (h : Blanks version ⟨named, false, false⟩ items) :
    Blanks version ⟨named, opened, false⟩ (.word "(" remarks :: items) := by
  have hkind : (spell version "(").kind ≠ .name := by
    rw [spell_operator (by decide) (by decide)]
    decide
  refine ⟨rfl, ?_⟩
  rwa [Scope.read_plain (by decide), Scope.take_quiet (fun _ => hkind) (by decide)]

/-- The name of a function that is declared. -/
theorem name {l : Leaf} (hname : l.IsName) (hg : l.token.Genuine version)
    (h : Blanks version ⟨true :: named, false, false⟩ items) :
    Blanks version ⟨known :: named, true, false⟩ (l.word :: items) := by
  have hplain := hg.unsign_eq (by rw [show l.token.kind = .name from hname]; decide)
  have hkind : (spell version l.token.text).kind = .name := by
    rcases hg.spells with ⟨-, -, hbare⟩ | ⟨number, -, hsigned, -⟩
    · rw [← hbare]
      exact hname
    · rw [hplain] at hsigned
      exact absurd (congrArg List.length hsigned) (by simp)
  refine ⟨rfl, ?_⟩
  rwa [Scope.read_name hplain hkind]

/-- The scope is that of the words so far. -/
theorem walks (version : Version) : Walks version fun _ s items => Blanks version s items where
  quiet hquiet _ h := quiet hquiet h
  parameters h := parameters h
  name hname hg h := name hname hg h
  opener := fun ⟨hopen, hclose⟩ _ h => by
    have hplain : ∀ text ∈ openers, unsign text = [text] ∧ text ≠ "end" := by decide
    obtain ⟨hone, hend⟩ := hplain _ hopen
    refine ⟨rfl, ?_⟩
    rwa [Scope.read_word hone, if_pos hopen, if_neg hclose, beq_false_of_ne hend, Bool.false_and]
  closer := fun {_ named known _ _ _} ⟨hclose, hopen⟩ _ h => by
    have hplain : ∀ text ∈ closers, unsign text = [text] ∧ text ≠ "function" := by decide
    obtain ⟨hone, hfunction⟩ := hplain _ hclose
    have hknown : ((known :: named).head? == some true) = known := by cases known <;> rfl
    refine ⟨rfl, ?_⟩
    rwa [Scope.read_word hone, if_neg hopen, if_pos hclose, beq_false_of_ne hfunction, hknown]
  otherwise _ h := by
    refine ⟨rfl, ?_⟩
    rw [Scope.read_word (by decide)]
    exact h
  omitted h := h
  space h := ⟨rfl, h⟩
  line _ hblank h := ⟨hblank, h⟩

end Blanks

end Item

end LuaLayout
