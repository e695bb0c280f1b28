/-
  LegacyGradient.Batch

  Converting a whole property value. Its segments are what stands between its outermost commas,
  without the blanks around them, and empty ones do not count. Each segment is converted by itself;
  the policy says what becomes of those that fail.
-/
import LegacyGradient.Convert

namespace LegacyGradient

/-- A segment that could not be converted. -/
structure Failure where
  /-- Its place among the segments, counted from zero. -/
  index : Nat
  /-- Its text. -/
  segment : Text
  /-- The cause. -/
  error : ConversionError
deriving DecidableEq

/-- The sentence that tells a reader which segment failed, and why. -/
def Failure.message (f : Failure) : Text :=
  "Gradient ".toList ++ Text.ofNat f.index ++ " (".toList ++ f.segment.quoted ++
    ") could not be converted: ".toList ++ f.error.message

/-- The outcome for a property value. -/
structure Batch where
  /-- The segments put together again. -/
  value : Text
  /-- The number of segments that were converted. -/
  converted : Nat
  /-- The segments that failed, in order. -/
  failures : List Failure
deriving DecidableEq

namespace Batch

/-- The segments of a property value. -/
def segments (value : Text) : List Text := (value.pieces.map Text.trim).filter (!·.isEmpty)

/-- A segment, its index and what its conversion gave. -/
structure Outcome where
  /-- The place of the segment. -/
  index : Nat
  /-- The text of the segment. -/
  segment : Text
  /-- The older form or the cause of failure. -/
  result : Except ConversionError Text

namespace Outcome

/-- The failure of a segment, if it failed. -/
def failure? (o : Outcome) : Option Failure :=
  match o.result with
  | .ok _ => none
  | .error error => some ⟨o.index, o.segment, error⟩

/-- What a segment adds to the new value. -/
def part? (policy : Policy) (o : Outcome) : Option Text :=
  match o.result with
  | .ok legacy => some legacy
  | .error _ => if policy = .keepSource then some o.segment else none

end Outcome

/-- The outcomes of all segments of a value, in order. -/
def outcomes (options : Options) (value : Text) : List Outcome :=
  (segments value).zipIdx.map fun (segment, index) => ⟨index, segment, convert options segment⟩

/-- The conversion of a property value, or the failure that stopped it. -/
def ofText (options : Options) (value : Text) : Except Failure Batch :=
  let outcomes := outcomes options value
  match options.policy, outcomes.filterMap Outcome.failure? with
  -- only the first failure is told, and nothing of what was converted
  | .abort, failure :: _ => .error failure
  | policy, failures => .ok {
      value := Text.join Text.commaBlank (outcomes.filterMap (Outcome.part? policy))
      converted := outcomes.countP fun o => o.failure?.isNone
      failures }

end Batch

end LegacyGradient
