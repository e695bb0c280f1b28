/-
  LegacyGradient.Direction.Lexeme

  Reading directions. An angle is tried before the keywords and two keywords before one, and two
  keywords name one vertical and one horizontal edge, in either order.
-/
import LegacyGradient.Direction.Basic
import LegacyGradient.Number
import LegacyGradient.Binary64.Arithmetic

namespace LegacyGradient

namespace Side

/-- The keyword of a given edge. -/
def scanAs (s : Side) (t : Text) : Option (Side × Text) :=
  (Lexeme.word s.name t).map fun (_, rest) => (s, rest)

/-- The keyword of the upper or lower edge. -/
def scanVertical (t : Text) : Option (Side × Text) := top.scanAs t <|> bottom.scanAs t

/-- The keyword of the left or right edge. -/
def scanHorizontal (t : Text) : Option (Side × Text) := left.scanAs t <|> right.scanAs t

/-- The keyword of an edge. -/
def scan (t : Text) : Option (Side × Text) := scanVertical t <|> scanHorizontal t

end Side

namespace Direction

/-- Two edges with blanks between them. -/
def scanTwo (first second : Text → Option (Side × Text)) (t : Text) :
    Option (List Side × Text) := do
  let (s, rest) ← first t
  let (_, rest) ← Lexeme.gap1 rest
  let (s', rest) ← second rest
  return ([s, s'], rest)

/-- A direction in keywords. -/
def scanKeywords (t : Text) : Option (List Side × Text) :=
  scanTwo Side.scanVertical Side.scanHorizontal t <|>
  scanTwo Side.scanHorizontal Side.scanVertical t <|>
  (Side.scan t).map fun (s, rest) => ([s], rest)

/-- An angle in degrees, or a bare zero. -/
def scanAngle (t : Text) : Option (Binary64 × Text) :=
  (do
    let (number, rest) ← Number.lexeme t
    let (_, rest) ← Lexeme.word "deg".toList rest
    return (Number.value number, rest)) <|>
  (do
    let (_, rest) ← Lexeme.char '0' t
    return (0, rest))

/-- A direction. -/
def scan (t : Text) : Option (Direction × Text) :=
  (scanAngle t).map (fun (degrees, rest) => (angle degrees, rest)) <|>
  (scanKeywords t).map (fun (sides, rest) => (keywords sides, rest))

end Direction

end LegacyGradient
