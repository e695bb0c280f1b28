/-
  LegacyGradient.Stop

  Color stops as they are written, and the reading of a list of them. The list is cut at its
  outermost commas; each piece, without the blanks around it, has to begin with a color, and what
  follows the color is the position, whatever it is.
-/
import LegacyGradient.Color
import LegacyGradient.ConversionError
import LegacyGradient.Length
import LegacyGradient.Text.Cut

namespace LegacyGradient

/-- A color stop: a color, and the text of its position if it has one. -/
structure Stop where
  /-- The color, as written. -/
  color : Text
  /-- The position, as written. -/
  position : Option Text
deriving DecidableEq

namespace Stop

/-- A color stop of a gradient: a color and, if need be after blanks, a length. -/
def lexeme : Lexeme := Color.lexeme ++ .gap ++ Length.lexeme.optional

/-- The stop in one piece of a list of stops. -/
def ofPiece (piece : Text) : Except ConversionError Stop :=
  let token := piece.trim
  match Color.lexeme token with
  | none => .error (.malformedStop token)
  | some (color, rest) =>
    let position := rest.trim
    .ok ⟨color, if position.isEmpty then none else some position⟩

/-- The stops of a list, or the error of the first piece that is none. -/
def listOfText (list : Text) : Except ConversionError (List Stop) :=
  list.pieces.mapM ofPiece

end Stop

end LegacyGradient
