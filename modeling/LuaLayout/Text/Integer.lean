/-
LuaLayout.Text.Integer — reading a whole number from text.

White space may stand around the numeral, one sign before it; the digits may be
of any script, and single underscores may separate them. The four information
separators U+001C to U+001F do not count as space here.
-/
import LuaLayout.Text.CharClass

namespace LuaLayout.Text.Integer

/-- Space that may surround a numeral. -/
def isPadding (c : Char) : Bool := isBlank c && !(0x1c ≤ c.toNat && c.toNat ≤ 0x1f)

/-- A text without the padding at its two ends. -/
def trimmed (text : List Char) : List Char :=
  ((text.dropWhile isPadding).reverse.dropWhile isPadding).reverse

/-- A numeral of more digits than this is refused. -/
def maxDigits : Nat := 4300

/-- The values of digits separated by at most one underscore, first to last. -/
def digits? : List Char → Option (List Nat)
  | [] => none
  | [c] => (digitValue? c).map ([·])
  | c :: '_' :: rest => do return (← digitValue? c) :: (← digits? rest)
  | c :: rest => do return (← digitValue? c) :: (← digits? rest)

/-- The number that decimal digits write. -/
def ofDigits (ds : List Nat) : Nat := ds.foldl (fun n d => 10 * n + d) 0

/-- The value of an unsigned numeral. -/
def natural? (text : List Char) : Option Nat := do
  let ds ← digits? text
  if ds.length ≤ maxDigits then some (ofDigits ds) else none

/-- The value of a numeral, if the text is one. -/
def read? (text : List Char) : Option Int :=
  match trimmed text with
  | '-' :: rest => (natural? rest).map fun n => -(n : Int)
  | '+' :: rest => (natural? rest).map Int.ofNat
  | rest => (natural? rest).map Int.ofNat

example : read? " -1_000\n".toList = some (-1000) := by decide

example : read? ['1', '_', '_', '0'] = none := by decide

end LuaLayout.Text.Integer
