/-
  LegacyGradient.Number

  Numbers as gradients write them: an optional minus sign and digits with an optional point, after
  which a digit has to follow. Any number of digits may be given, and the value is the floating
  point number nearest to the decimal.
-/
import LegacyGradient.Binary64.Rounding
import LegacyGradient.Lexeme
import LegacyGradient.Text.Digits

namespace LegacyGradient.Number

/-- A run of at least one decimal digit. -/
def digits1 : Lexeme := .run1 Char.isDigit

/-- A number. The form with a point is tried first, so that a point is never left behind where a
digit follows it. -/
def lexeme : Lexeme :=
  (Lexeme.char '-').optional ++
    ((Lexeme.run Char.isDigit ++ Lexeme.char '.' ++ digits1) <|> digits1)

/-- The value of digits with an optional point among them. -/
def magnitude (t : Text) : Rat :=
  let wholes := t.takeWhile Char.isDigit
  let decimals := (t.dropWhile Char.isDigit).drop 1
  Text.natOfDigits (wholes ++ decimals) / 10 ^ decimals.length

/-- The floating point number that a number's text denotes. -/
def value : Text → Binary64
  | '-' :: t => .ofRatOrZero true (-magnitude t)
  | t => .ofRatOrZero false (magnitude t)

end LegacyGradient.Number
