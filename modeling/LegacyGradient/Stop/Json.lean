/-
  LegacyGradient.Stop.Json

  The JSON form of color stops, placed or not. A position or an offset may be null, and may be left
  out of an object.
-/
import LegacyGradient.Json.Compact
import LegacyGradient.Json.Record
import LegacyGradient.Placement

namespace LegacyGradient

open Json (Reader Record)

namespace Stop

/-- The parts of a stop that a text gives. -/
structure Draft where
  /-- The color, if it is given. -/
  color : Option Text := none
  /-- The position, if it is given; it may be given as absent. -/
  position : Option (Option Text) := none

/-- The record of a stop. -/
def record : Record Draft Stop := .ofDraft "RawStop".toList {}
  [ { name := "color".toList
      isGiven := fun d => d.color.isSome
      read := fun d => do return { d with color := some (← Reader.string) } },
    { name := "position".toList
      isGiven := fun d => d.position.isSome
      read := fun d => do return { d with position := some (← Reader.string.optional) } } ]
  fun d => do
    return {
      color := ← Record.required "color".toList d.color
      position := d.position.getD none }

/-- Reads a stop. -/
def reader : Reader Stop := record.read

/-- The fields of a stop as JSON. -/
def jsonMembers (s : Stop) : List (Text × Text) := [
  ("color".toList, Json.stringText s.color),
  ("position".toList, Json.optionalText Json.stringText s.position)]

/-- The JSON text of a stop. -/
def json (s : Stop) : Text := Json.objectText s.jsonMembers

end Stop

namespace PlacedStop

/-- The parts of a placed stop that a text gives. -/
structure Draft where
  /-- The color, if it is given. -/
  color : Option Text := none
  /-- The position, if it is given; it may be given as absent. -/
  position : Option (Option Text) := none
  /-- The offset, if it is given; it may be given as absent. -/
  offset : Option (Option Binary64) := none

/-- The record of a placed stop. -/
def record : Record Draft PlacedStop := .ofDraft "ResolvedStop".toList {}
  [ { name := "color".toList
      isGiven := fun d => d.color.isSome
      read := fun d => do return { d with color := some (← Reader.string) } },
    { name := "position".toList
      isGiven := fun d => d.position.isSome
      read := fun d => do return { d with position := some (← Reader.string.optional) } },
    { name := "computed_position".toList
      isGiven := fun d => d.offset.isSome
      read := fun d => do return { d with offset := some (← Reader.binary64.optional) } } ]
  fun d => do
    return {
      color := ← Record.required "color".toList d.color
      position := d.position.getD none
      offset := d.offset.getD none }

/-- Reads a placed stop. -/
def reader : Reader PlacedStop := record.read

/-- The JSON text of a placed stop. -/
def json (s : PlacedStop) : Text :=
  Json.objectText
    (s.jsonMembers ++ [("computed_position".toList, Json.optionalText Json.numberText s.offset)])

end PlacedStop

end LegacyGradient
