/-
  LegacyGradient.Convert

  Converting one gradient. It is read, its stops are counted, its direction is turned into a line
  and its stops are placed on it, in this order; the first step that fails gives the error.
-/
import LegacyGradient.Gradient
import LegacyGradient.Legacy
import LegacyGradient.Options.Basic

namespace LegacyGradient

/-- The older form of a direction and stops. -/
def Legacy.ofParts (direction : Direction) (stops : List Stop) : Except ConversionError Text := do
  let corners ← Corners.ofDirection direction
  let placed ← Placement.place stops
  return Legacy.write corners placed

/-- The older form of a gradient. -/
def convert (options : Options) (t : Text) : Except ConversionError Text := do
  let gradient ← Gradient.ofText t
  -- a gradient with too few stops is refused for that, whatever its direction and its positions are
  if gradient.stops.length < options.minStops then
    throw (.tooFewStops gradient.stops.length options.minStops)
  Legacy.ofParts gradient.direction gradient.stops

end LegacyGradient
