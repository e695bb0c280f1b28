/-
  LegacyGradient.Corners

  The line of a gradient in the older form: it runs from one point to another, and each coordinate
  of a point is one end of the box or the other. An edge moves the end point to the opposite edge,
  on its axis. Of the angles only those convert that point to an edge, the whole quarter turns.
-/
import LegacyGradient.ConversionError
import LegacyGradient.Direction.Basic
import LegacyGradient.Binary64.Arithmetic

namespace LegacyGradient

/-! ## Points -/

/-- A coordinate of a point on the border of the box. -/
inductive Coordinate where
  /-- The left or upper end. -/
  | zero
  /-- The right or lower end. -/
  | full
deriving DecidableEq

/-- The text of a coordinate. -/
def Coordinate.display : Coordinate → Text
  | zero => ['0']
  | full => "100%".toList

/-- A point given by its coordinates. -/
structure Point where
  /-- The horizontal coordinate, from the left. -/
  x : Coordinate := .zero
  /-- The vertical coordinate, from above. -/
  y : Coordinate := .zero
deriving DecidableEq

/-- The text of a point. -/
def Point.display (p : Point) : Text := p.x.display ++ ' ' :: p.y.display

/-- The two points between which a gradient runs. -/
structure Corners where
  /-- The point where the gradient starts. -/
  start : Point := {}
  /-- The point where the gradient ends. -/
  finish : Point := {}
deriving DecidableEq

/-! ## Angles -/

namespace Angle

/-- An angle less whole turns: the remainder by 360, and one more turn if that is negative. -/
def normalize (degrees : Binary64) : Binary64 :=
  let rest := degrees % 360
  if rest < 0 then rest + 360 else rest

/-- The edge that a gradient with this angle starts from, if it is one. -/
def side? (degrees : Binary64) : Option Side :=
  let turn := normalize degrees
  if turn.IsZero then some .left
  else if turn = 90 then some .bottom
  else if turn = 180 then some .right
  else if turn = 270 then some .top
  else none

end Angle

/-! ## Lines -/

namespace Corners

/-- The text of a pair of points. -/
def display (c : Corners) : Text := c.start.display ++ ", ".toList ++ c.finish.display

/-- The line that starts from the given edges. On an axis without an edge it does not move. -/
def ofSides (sides : List Side) : Corners where
  start := {
    -- of two edges on one axis the left and the upper one count
    x := if .left ∉ sides ∧ .right ∈ sides then .full else .zero
    y := if .top ∉ sides ∧ .bottom ∈ sides then .full else .zero }
  finish := {
    x := if .left ∈ sides then .full else .zero
    y := if .top ∈ sides then .full else .zero }

/-- The line in a given direction. -/
def ofDirection : Direction → Except ConversionError Corners
  | .keywords sides => .ok (ofSides sides)
  | .angle degrees =>
    match Angle.side? degrees with
    | some side => .ok (ofSides [side])
    | none => .error (.unsupportedDirection (Direction.angle degrees).display)

end Corners

end LegacyGradient
