/-
  LegacyGradient.Placement

  Placing the stops on the line of the gradient, as offsets between 0 at its start and 1 at its
  end. Stops with a percentage, the first and the last have an offset of their own and anchor the
  rest: the stops between two anchors are spread evenly, on hundredths, and then every stop that
  lies before its predecessor is moved up to it.

  The stops are settled in one pass. `Progress` knows the last anchor and how many stops wait since
  then; when the next anchor comes, the waiting stops are filled, the last one first, and the part
  of the line since the last anchor is put in order.
-/
import LegacyGradient.Stop

namespace LegacyGradient

/-- A color stop with its offset on the line, if it has been placed. -/
structure PlacedStop extends Stop where
  /-- The offset from the start of the line, as a part of its length. -/
  offset : Option Binary64
deriving DecidableEq

namespace Placement

/-! ## Runs between anchors -/

/-- The nearest hundredth, a half going up. -/
def roundToHundredth (x : Binary64) : Binary64 := (x * 100 + .half).floor / 100

/-- The offsets of all stops, those absent that are not settled yet. -/
abbrev Offsets := Array (Option Binary64)

/-- The offset at an index, and zero where there is none. -/
def Offsets.at (offsets : Offsets) (i : Nat) : Binary64 := (offsets[i]?.getD none).getD 0

/-- Fills the `width` places after `anchor`, the last one first. The place filled first lies
`remaining` steps from the start, the next one a step less. -/
def fillRun (start step : Binary64) (anchor : Nat) : (width remaining : Nat) → Offsets → Offsets
  | 0, _, offsets => offsets
  | width + 1, remaining, offsets =>
    fillRun start step anchor width (remaining - 1) <|
      offsets.setIfInBounds (anchor + width + 1) <|
        some (roundToHundredth (start + step * .ofNat remaining))

/-- Spreads the `waiting` stops between the anchors at two indices evenly over their distance, or
on the first anchor if the second one does not lie after it. -/
def spread (offsets : Offsets) (anchor next waiting : Nat) : Offsets :=
  let start := offsets.at anchor
  -- a step that would be negative or NaN is zero
  let step := ((offsets.at next - start) / .ofNat (next - anchor)).atLeastZero
  fillRun start step anchor (next - anchor - 1) waiting offsets

/-- Moves each of the `width` stops after index `i` up to its predecessor where it lies before
it. -/
def raiseRun (i : Nat) : (width : Nat) → Offsets → Offsets
  | 0, offsets => offsets
  | width + 1, offsets =>
    raiseRun (i + 1) width <|
      if offsets.at (i + 1) < offsets.at i then
        offsets.setIfInBounds (i + 1) (some (offsets.at i))
      else offsets

/-! ## The pass over the stops -/

/-- The offset that a stop has by itself: its percentage, or the start or end of the line for a
first or last stop without one. -/
def ownOffset (last i : Nat) (stop : Stop) : Except ConversionError (Option Binary64) :=
  match stop.position with
  | some position =>
    match Percentage.ofText? position with
    | some percentage => .ok (some (percentage / 100))
    | none => .error (.nonPercentagePosition stop.color position)
  | none => .ok (if i = 0 then some 0 else if i = last then some 1 else none)

/-- The state of the pass over the stops. -/
structure Progress where
  /-- The offsets settled so far. -/
  offsets : Offsets
  /-- The index of the last anchor. -/
  anchor : Nat := 0
  /-- The number of stops that wait for the next anchor. -/
  waiting : Nat := 0
deriving DecidableEq

namespace Progress

/-- No stop of `n` is settled. -/
def start (n : Nat) : Progress where
  offsets := Array.replicate n none

/-- Makes the stop at index `i` the next anchor, and settles all stops up to it. -/
def settle (p : Progress) (i : Nat) (offset : Binary64) : Progress :=
  let offsets := p.offsets.setIfInBounds i (some offset)
  -- the waiting stops are spread before the anchor itself may be raised
  let offsets := if 0 < p.waiting then spread offsets p.anchor i p.waiting else offsets
  { offsets := raiseRun p.anchor (i - p.anchor) offsets, anchor := i, waiting := 0 }

/-- Takes up the stop at index `i`, which anchors or waits. -/
def advance (last : Nat) (p : Progress) (stop : Stop × Nat) : Except ConversionError Progress := do
  match ← ownOffset last stop.2 stop.1 with
  | some offset => return p.settle stop.2 offset
  | none => return { p with waiting := p.waiting + 1 }

end Progress

/-- Places every stop of a list, or refuses the first stop whose position is no percentage. -/
def place (stops : List Stop) : Except ConversionError (List PlacedStop) := do
  let p ← stops.zipIdx.foldlM (Progress.advance (stops.length - 1)) (.start stops.length)
  return List.zipWith (fun stop offset => { stop with offset }) stops p.offsets.toList

end Placement

end LegacyGradient
