/-
  LegacyGradient.Length

  Lengths, which say where a color stop lies, and the percentages among them, the only ones that
  can be placed without knowing the size of the box. A bare zero is a length and a percentage.
-/
import LegacyGradient.Number
import LegacyGradient.Binary64.Arithmetic

namespace LegacyGradient

namespace Length

/-- The units of lengths. No unit is the beginning of a later one. -/
def units : List Text :=
  ["%", "px", "mm", "cm", "in", "em", "rem", "en", "ex", "ch", "vm", "vw", "vh"].map String.toList

/-- A length: a number with a unit, or a bare zero. -/
def lexeme : Lexeme :=
  (Number.lexeme ++ .oneOf units) <|> Lexeme.char '0'

end Length

namespace Percentage

/-- A percentage at the front of a text, with its value. -/
def scan (t : Text) : Option (Binary64 × Text) :=
  (do
    let (number, rest) ← Number.lexeme t
    let (_, rest) ← Lexeme.char '%' rest
    return (Number.value number, rest)) <|>
  (do
    let (_, rest) ← Lexeme.char '0' t
    return (0, rest))

/-- The value of a text that is a percentage apart from blanks around it. -/
def ofText? (t : Text) : Option Binary64 := wholeText scan t.trim

end Percentage

end LegacyGradient
