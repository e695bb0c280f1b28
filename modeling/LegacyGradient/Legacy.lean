/-
  LegacyGradient.Legacy

  Writing the older form of a gradient: the kind of the gradient, the two points of its line and its
  stops. A first stop at the very start and a last stop at the very end of the line have short
  forms; every other stop is written with its offset.
-/
import LegacyGradient.Corners
import LegacyGradient.Placement

namespace LegacyGradient.Legacy

/-- The name of the function that the older form calls. -/
def functionName : Text := "-webkit-gradient".toList

/-- The text of an offset; a negative zero is written as zero. -/
def offsetText (offset : Binary64) : Text := (offset + 0).display

/-- The written form of the stop at index `i`. A stop without an offset counts as lying at the
start. -/
def stopText (last i : Nat) (stop : PlacedStop) : Text :=
  let offset := stop.offset.getD 0
  -- a stop that is both first and last has the short form of the first only
  if i = 0 ∧ offset.IsZero then "from(".toList ++ stop.color ++ [')']
  else if i ≠ 0 ∧ i = last ∧ offset = 1 then "to(".toList ++ stop.color ++ [')']
  else "color-stop(".toList ++ offsetText offset ++ ", ".toList ++ stop.color ++ [')']

/-- The older form of the gradient with this line and these stops. -/
def write (corners : Corners) (stops : List PlacedStop) : Text :=
  let last := stops.length - 1
  functionName ++ "(linear, ".toList ++ corners.display ++
    stops.zipIdx.flatMap (fun (stop, i) => ", ".toList ++ stopText last i stop) ++ [')']

end LegacyGradient.Legacy
