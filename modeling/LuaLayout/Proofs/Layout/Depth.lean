/-
LuaLayout.Proofs.Layout.Depth — every line stands as deep as the constructs around it.

The layout hands an indentation from part to part and never counts what is open.
`Indented` counts: it follows the words of items with the depth that they lead
to, and asks of every line start that its indentation is that of the depth there,
one step back before a closer. That a part begins with no closer shows in its
first word, which may still have a line start before it.
-/
import LuaLayout.Proofs.Layout.Walk

namespace LuaLayout

/-- How far a closer stands back from what it closes, in steps. -/
def stepBack (text : String) : Int := if text ∈ closers then 1 else 0

/-- What a text adds to the depth of what comes after it. -/
def depthChange (text : String) : Int := (if text ∈ openers then 1 else 0) - stepBack text

namespace Item

/-- Every line of the items is indented as deep as it stands, where `start` is the
indentation of the line that has just been started, and nothing is open at the end. -/
def Indented : Option Int → Int → List Item → Prop
  | _, depth, [] => depth = 0
  | start, depth, .word text _ :: rest =>
    (∀ indent ∈ start, Level indent (depth - stepBack text)) ∧
      Indented none (depth + depthChange text) rest
  | start, depth, .omitted _ :: rest => Indented start depth rest
  | start, depth, .space :: rest => start = none ∧ Indented none depth rest
  | _, depth, .line indent noteIndent _ :: rest =>
    Level noteIndent depth ∧ Indented (some indent) depth rest

namespace Indented

variable {start : Option Int} {depth : Int} {text : String} {remarks : List String}
  {items : List Item}

theorem quiet_cases (h : text ∉ openers ++ closers) : text ∉ closers ∧ depthChange text = 0 := by
  simp only [List.mem_append, not_or] at h
  refine ⟨h.2, ?_⟩
  rw [depthChange, stepBack, if_neg h.1, if_neg h.2, Int.sub_zero]

theorem neutral_cases (h : Neutral text) : text ∉ closers ∧ depthChange text = 0 :=
  quiet_cases fun hmem => h (List.mem_append_left _ hmem)

/-- A word that closes nothing stands at the depth before it. -/
theorem opening (hback : text ∉ closers) (hline : ∀ indent ∈ start, Level indent depth)
    (h : Indented none (depth + depthChange text) items) :
    Indented start depth (.word text remarks :: items) := by
  refine ⟨fun indent hindent => ?_, h⟩
  rw [stepBack, if_neg hback, Int.sub_zero]
  exact hline indent hindent

/-- A closer stands as deep as what it closes. -/
theorem closing (hcloses : text ∈ closers) (hline : ∀ indent ∈ start, Level indent depth)
    (h : Indented none (depth + 1 + depthChange text) items) :
    Indented start (depth + 1) (.word text remarks :: items) := by
  refine ⟨fun indent hindent => ?_, h⟩
  rw [stepBack, if_pos hcloses, Int.add_sub_cancel]
  exact hline indent hindent

theorem quiet (hquiet : text ∉ openers ++ closers) (hline : ∀ indent ∈ start, Level indent depth)
    (h : Indented none depth items) : Indented start depth (.word text remarks :: items) := by
  obtain ⟨hback, hchange⟩ := quiet_cases hquiet
  refine opening hback hline ?_
  rwa [hchange, Int.add_zero]

theorem innerNeutral (htext : Neutral text) (h : Indented none depth items) :
    Indented none depth (.word text remarks :: items) :=
  quiet (fun hmem => htext (List.mem_append_left _ hmem)) nofun h

/-- The depth is the number of constructs that are open. -/
theorem walks (version : Version) :
    Walks version fun start s items => Indented start s.named.length items where
  quiet hquiet hline h := quiet hquiet hline h
  parameters h := quiet (by decide) nofun h
  name hname hg h := innerNeutral (hg.neutral_name hname) h
  opener := fun ⟨hopens, hback⟩ hline h => by
    refine opening hback hline ?_
    rwa [depthChange, stepBack, if_pos hopens, if_neg hback, Int.sub_zero]
  closer := fun ⟨hcloses, hopens⟩ hline h => by
    refine closing hcloses hline ?_
    rwa [depthChange, stepBack, if_pos hcloses, if_neg hopens, Int.zero_sub,
      Int.add_neg_cancel_right]
  otherwise hline h := by
    have hchange : depthChange "else" = 0 := by decide
    refine closing (by decide) hline ?_
    rwa [hchange, Int.add_zero]
  omitted h := h
  space h := ⟨rfl, h⟩
  line hlevel _ h := ⟨hlevel, h⟩

end Indented

end Item

end LuaLayout
