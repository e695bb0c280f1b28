/-
  LegacyGradient.Gradient.Json

  The JSON form of gradients: the direction, the stops in order, and the text that the gradient was
  read from.
-/
import LegacyGradient.Direction.Json
import LegacyGradient.Gradient
import LegacyGradient.Stop.Json

namespace LegacyGradient

open Json (Reader Record)

namespace Gradient

/-- The parts of a gradient that a text gives. -/
structure Draft where
  /-- The direction, if it is given. -/
  direction : Option Direction := none
  /-- The stops, if they are given. -/
  stops : Option (List Stop) := none
  /-- The source, if it is given. -/
  source : Option Text := none

/-- The record of a gradient. -/
def record : Record Draft Gradient := .ofDraft "ParsedGradient".toList {}
  [ { name := "direction".toList
      isGiven := fun d => d.direction.isSome
      read := fun d => do return { d with direction := some (← Direction.reader) } },
    { name := "stops".toList
      isGiven := fun d => d.stops.isSome
      read := fun d => do return { d with stops := some (← Stop.reader.list) } },
    { name := "source_text".toList
      isGiven := fun d => d.source.isSome
      read := fun d => do return { d with source := some (← Reader.string) } } ]
  fun d => do
    return {
      direction := ← Record.required "direction".toList d.direction
      stops := ← Record.required "stops".toList d.stops
      source := ← Record.required "source_text".toList d.source }

/-- Reads a gradient. -/
def reader : Reader Gradient := record.read

/-- The JSON text of a gradient. -/
def json (g : Gradient) : Text :=
  Json.objectText [
    ("direction".toList, g.direction.json),
    ("stops".toList, Json.arrayText (g.stops.map Stop.json)),
    ("source_text".toList, Json.stringText g.source)]

end Gradient

end LegacyGradient
