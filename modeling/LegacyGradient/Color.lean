/-
  LegacyGradient.Color

  Colors, which are recognized by their form and written as they stand: a color function with three
  or four arguments, three or six hexadecimal digits, or a keyword. Of the keywords with fewer than
  five letters those are listed that name a color; any other lowercase word of five to twenty
  letters is taken for one.
-/
import LegacyGradient.Number

namespace LegacyGradient.Color

/-- The names of the color functions. A name comes before its own beginnings. -/
def functionNames : List Text := ["rgba", "rgb", "hsla", "hsl"].map String.toList

/-- The color keywords with fewer than five letters. -/
def shortNames : List Text :=
  ["red", "tan", "grey", "gray", "lime", "navy", "blue", "teal", "aqua", "cyan", "gold", "peru",
    "pink", "plum", "snow"].map String.toList

/-- One argument of a color function: a number, which may be a percentage, and after it a comma,
which may be left out. -/
def argument : Lexeme :=
  .gap ++ Number.lexeme ++ (Lexeme.char '%').optional ++ .gap ++
    (Lexeme.char ',').optional ++ .gap

/-- A color function with three or four arguments. -/
def function : Lexeme :=
  .oneOf functionNames ++ .char '(' ++ argument ++ argument ++ argument ++ argument.optional ++
    .char ')'

/-- The hexadecimal digits, of either case. -/
def isHexDigit (c : Char) : Bool := (Text.hexDigitValue? c).isSome

/-- A number sign and three or six hexadecimal digits, with no such digit after them. -/
def hex : Lexeme :=
  .char '#' ++ (Lexeme.run1 isHexDigit).such fun t => t.length == 3 || t.length == 6

/-- A color keyword with no lowercase letter after it. -/
def keyword : Lexeme :=
  (Lexeme.run1 Char.isLower).such fun t =>
    shortNames.contains t || (5 ≤ t.length && t.length ≤ 20)

/-- A color. -/
def lexeme : Lexeme := function <|> hex <|> keyword

end LegacyGradient.Color
