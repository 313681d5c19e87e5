/-
LuaLayout.Format — from source text to formatted text.

A text is cut into tokens, reduced at a version without its white space, read
and laid out. It may arrive in chunks; where they are cut makes no difference.
-/
import LuaLayout.Reduction
import LuaLayout.Scanner
import LuaLayout.Session

namespace LuaLayout

/-- A program ready to be read: how many raw tokens it had, and its reduction. -/
structure Prepared where
  rawTokens : Nat
  reduction : Reduction
  deriving DecidableEq, Repr

/-- Cuts a text that arrives in chunks into tokens and reduces them. -/
def prepare (version : Version) (chunks : List String) : Except Fault Prepared := do
  let tokens ← tokenizeChunks chunks
  return ⟨tokens.length, ← reduce version .whitespace tokens⟩

namespace Prepared

/-- The formatted text of the program. -/
def format (p : Prepared) : Except Fault String := formatTokens .program p.reduction.tokens

end Prepared

/-- The formatted text of a program that arrives in chunks. -/
def formatChunks (version : Version) (chunks : List String) : Except Fault String := do
  (← prepare version chunks).format

/-- The formatted text of a program. -/
def format (version : Version) (source : String) : Except Fault String :=
  formatChunks version [source]

end LuaLayout
