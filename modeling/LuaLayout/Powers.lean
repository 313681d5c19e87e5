/-
LuaLayout.Powers — how tightly the operators of expressions bind.

A binary operator has a power on either side: a run of operators goes on as
long as the left power of the next one exceeds the limit of the run, and the
right power is the limit for its right operand. An operator whose right power
is below its left one is right associative.
-/
namespace LuaLayout

/-- The binding powers of a binary operator on its two sides. -/
structure Powers where
  left : Int
  right : Int
  deriving DecidableEq, Repr

namespace Powers

/-- The binary operators, loosest first. -/
def table : List (String × Powers) :=
  [("or", ⟨1, 1⟩), ("and", ⟨2, 2⟩),
   ("<", ⟨3, 3⟩), (">", ⟨3, 3⟩), ("<=", ⟨3, 3⟩), (">=", ⟨3, 3⟩), ("~=", ⟨3, 3⟩), ("==", ⟨3, 3⟩),
   ("|", ⟨4, 4⟩), ("~", ⟨5, 5⟩), ("&", ⟨6, 6⟩), ("<<", ⟨7, 7⟩), (">>", ⟨7, 7⟩),
   ("..", ⟨9, 8⟩), ("+", ⟨10, 10⟩), ("-", ⟨10, 10⟩),
   ("*", ⟨11, 11⟩), ("/", ⟨11, 11⟩), ("//", ⟨11, 11⟩), ("%", ⟨11, 11⟩), ("^", ⟨14, 13⟩)]

/-- The powers of a binary operator. -/
def ofBinary? (text : String) : Option Powers := table.lookup text

/-- The unary operators. -/
def unaryOperators : List String := ["-", "#", "not", "~"]

/-- The limit for the operand of a unary operator. -/
def unary : Int := 12

end Powers

end LuaLayout
