/-
LuaLayout.Vocabulary — the words and symbols of Lua, by language version.

Versions are numbers. From the second on goto is a keyword, from the third on
the bitwise and floor-division operators are accepted; any number between or
beyond counts with the highest of these that it reaches.
-/
namespace LuaLayout

/-! ## 1. Versions -/

/-- A version of the language, as a number on an open scale. -/
abbrev Version := Int

namespace Version

/-- The base grammar. -/
def base : Version := 1

/-- The first version with goto. -/
def withGoto : Version := 2

/-- The first version with bitwise operators and floor division. -/
def withBitwise : Version := 3

end Version

namespace Vocabulary

/-! ## 2. Symbols -/

/-- The operators of every version. -/
def baseOperators : List String :=
  ["+", "-", "*", "/", "%", "^", "#", "==", "~=", "<=", ">=", "<", ">", "=",
   "(", ")", "\x7b", "\x7d", "[", "]", "::", ";", ":", ",", ".", ".."]

/-- The operators that need a version with bitwise operators. -/
def bitwiseOperators : List String := ["&", "~", "|", "<<", ">>", "//"]

/-- Three dots: lexed as an operator, a constant to the grammar. -/
def ellipsis : String := "..."

/-- Every text that lexes as one operator. -/
def allOperators : List String := baseOperators ++ bitwiseOperators ++ [ellipsis]

/-- The characters that operators are made of. -/
def operatorChars : String := ";:=.,[]()\x7b\x7d+-*/^%<>~#&|"

/-- A character that operators are made of. -/
def isOperatorChar (c : Char) : Bool := operatorChars.toList.contains c

/-- The brackets that close a group. -/
def closingBrackets : List String := [")", "]", "\x7d"]

/-- The operator may be used at a version. -/
def acceptsOperator (version : Version) (text : String) : Bool :=
  baseOperators.contains text ||
    (decide (Version.withBitwise ≤ version) && bitwiseOperators.contains text)

/-! ## 3. Words -/

/-- The keywords of every version. -/
def baseKeywords : List String :=
  ["break", "do", "else", "elseif", "end", "for", "function", "if", "in",
   "local", "repeat", "return", "then", "until", "while"]

/-- The keywords of a version. -/
def keywords (version : Version) : List String :=
  if Version.withGoto ≤ version then "goto" :: baseKeywords else baseKeywords

/-- The operators that are spelled as words. -/
def wordOperators : List String := ["and", "not", "or"]

/-- The literal constants. -/
def constants : List String := ["true", "false", "nil", ellipsis]

/-- The keywords that end a block from outside. -/
def blockEnds : List String := ["end", "else", "elseif", "until"]

/-- The texts after which a return carries no values. -/
def returnEnds : List String := blockEnds ++ [";", "::"]

end Vocabulary

end LuaLayout
