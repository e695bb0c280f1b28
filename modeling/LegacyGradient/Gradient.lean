/-
  LegacyGradient.Gradient

  Reading a gradient. A first pass matches the whole expression against the grammar and keeps its
  outline, the direction and the text of its list of stops; a second pass reads the stops. The
  direction is tried before the stops, so that an edge's keyword is not taken for a color.
-/
import LegacyGradient.Direction.Lexeme
import LegacyGradient.Stop

namespace LegacyGradient

/-! ## The outline -/

/-- A gradient whose list of stops has not been read yet. -/
structure Outline where
  /-- The direction. -/
  direction : Direction
  /-- The list of stops, as written. -/
  stopList : Text
deriving DecidableEq

namespace Outline

/-- The name of the function and its opening parenthesis. -/
def opening : Lexeme := .word "linear-gradient(".toList

/-- A direction with the comma after it. -/
def scanDirection (t : Text) : Option (Direction × Text) := do
  let (direction, rest) ← Direction.scan t
  let (_, rest) ← (Lexeme.gap ++ .char ',') rest
  return (direction, rest)

/-- A list of color stops with commas between them. -/
def stops : Lexeme := .separated ',' (.gap ++ Stop.lexeme ++ .gap)

/-- A gradient with blanks around it. -/
def scan (t : Text) : Option (Outline × Text) := do
  let (_, rest) ← (Lexeme.gap ++ opening ++ .gap) t
  -- without a comma after it a direction is none, and its keyword may be a color
  let (direction, rest) := (scanDirection rest).getD (Direction.default, rest)
  let (_, rest) ← Lexeme.gap rest
  let (list, rest) ← stops rest
  let (_, rest) ← (Lexeme.char ')' ++ .gap) rest
  return (⟨direction, list⟩, rest)

/-- The outline of a text that is one gradient. -/
def ofText (t : Text) : Except ConversionError Outline :=
  match wholeText scan t with
  | some outline => .ok outline
  | none => .error (.notRecognized t)

end Outline

/-! ## The gradient -/

/-- A gradient as it is written. -/
structure Gradient where
  /-- The direction. -/
  direction : Direction
  /-- The color stops, in order. -/
  stops : List Stop
  /-- The text that the gradient was read from. -/
  source : Text
deriving DecidableEq

namespace Gradient

/-- The gradient that a text is. -/
def ofText (t : Text) : Except ConversionError Gradient := do
  let outline ← Outline.ofText t
  let stops ← Stop.listOfText outline.stopList
  return ⟨outline.direction, stops, t⟩

/-- A gradient is shown as the text it was read from. -/
def display (g : Gradient) : Text := g.source

end Gradient

end LegacyGradient
