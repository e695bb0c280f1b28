/-
  LegacyGradient.Corners.Json

  The JSON form of the line of a gradient: its start and its end, each a pair of coordinates.
-/
import LegacyGradient.Corners
import LegacyGradient.Json.Compact
import LegacyGradient.Json.Record

namespace LegacyGradient

open Json (Reader Record Variant)

namespace Coordinate

/-- The name of a coordinate. -/
def name : Coordinate → Text
  | zero => "Zero".toList
  | full => "Full".toList

/-- Reads a coordinate by its name. -/
def reader : Reader Coordinate := Variant.read ([zero, full].map fun c => .plain c.name c)

/-- The JSON text of a coordinate. -/
def json (c : Coordinate) : Text := Json.stringText c.name

end Coordinate

namespace Point

/-- Reads a point as a pair of coordinates. -/
def reader : Reader Point := do
  let (x, y) ← Reader.pair Coordinate.reader Coordinate.reader
  return { x, y }

/-- The JSON text of a point. -/
def json (p : Point) : Text := Json.arrayText [p.x.json, p.y.json]

end Point

namespace Corners

/-- The points that a text gives. -/
structure Draft where
  /-- The start, if it is given. -/
  start : Option Point := none
  /-- The end, if it is given. -/
  finish : Option Point := none

/-- The record of a line. -/
def record : Record Draft Corners := .ofDraft "CornerBox".toList {}
  [ { name := "start".toList
      isGiven := fun d => d.start.isSome
      read := fun d => do return { d with start := some (← Point.reader) } },
    { name := "end".toList
      isGiven := fun d => d.finish.isSome
      read := fun d => do return { d with finish := some (← Point.reader) } } ]
  fun d => do
    return {
      start := ← Record.required "start".toList d.start
      finish := ← Record.required "end".toList d.finish }

/-- Reads a line. -/
def reader : Reader Corners := record.read

/-- The JSON text of a line. -/
def json (c : Corners) : Text :=
  Json.objectText [("start".toList, c.start.json), ("end".toList, c.finish.json)]

end Corners

end LegacyGradient
