/-
  LegacyGradient.Direction.Basic

  The direction of a gradient as its author gives it: edges of the box or an angle in degrees.
-/
import LegacyGradient.Binary64.Display

namespace LegacyGradient

/-- An edge of the box. -/
inductive Side where
  /-- The upper edge. -/
  | top
  /-- The lower edge. -/
  | bottom
  /-- The left edge. -/
  | left
  /-- The right edge. -/
  | right
deriving DecidableEq

namespace Side

/-- The keyword of an edge. -/
def name : Side → Text
  | top => "top".toList
  | bottom => "bottom".toList
  | left => "left".toList
  | right => "right".toList

/-- The four edges. -/
def all : List Side := [top, bottom, left, right]

end Side

/-- The direction of a gradient. -/
inductive Direction where
  /-- The edges that the gradient starts from, in the order given. -/
  | keywords (sides : List Side)
  /-- An angle in degrees, not reduced to one turn. -/
  | angle (degrees : Binary64)
deriving DecidableEq

namespace Direction

/-- A gradient that names no direction starts from the top. -/
def default : Direction := keywords [.top]

/-- The text of a direction: its keywords with one blank between them, or its angle with the
unit. -/
def display : Direction → Text
  | keywords sides => Text.join [' '] (sides.map Side.name)
  | angle degrees => degrees.display ++ "deg".toList

end Direction

end LegacyGradient
