/-
  LegacyGradient.Direction.Json

  The JSON form of edges and directions. An edge is its keyword, and a direction an object whose
  only field says whether it holds keywords or an angle.
-/
import LegacyGradient.Direction.Basic
import LegacyGradient.Json.Compact
import LegacyGradient.Json.Record

namespace LegacyGradient

open Json (Reader Variant)

namespace Side

/-- Reads an edge by its keyword. -/
def reader : Reader Side := Variant.read (all.map fun s => .plain s.name s)

/-- The JSON text of an edge. -/
def json (s : Side) : Text := Json.stringText s.name

end Side

namespace Direction

/-- Reads a direction. -/
def reader : Reader Direction := Variant.read [
  .carrying "Keywords".toList (do return keywords (← Reader.list Side.reader)),
  .carrying "Angle".toList (do return angle (← Reader.binary64))]

/-- The JSON text of a direction. -/
def json : Direction → Text
  | keywords sides => Json.objectText [("Keywords".toList, Json.arrayText (sides.map Side.json))]
  | angle degrees => Json.objectText [("Angle".toList, Json.numberText degrees)]

end Direction

end LegacyGradient
