/-
  LegacyGradient.ConversionError

  Why a gradient has no older form. Each cause carries the text it is about, as it was given.
-/
import LegacyGradient.Text.Digits
import LegacyGradient.Text.Quoted

namespace LegacyGradient

/-- A reason to refuse a gradient. -/
inductive ConversionError where
  /-- The text is not a gradient. -/
  | notRecognized (input : Text)
  /-- A color stop does not begin with a color. -/
  | malformedStop (token : Text)
  /-- The direction is an angle that points to no edge of the box. -/
  | unsupportedDirection (direction : Text)
  /-- The position of a color stop is a length of another kind. -/
  | nonPercentagePosition (color position : Text)
  /-- The gradient has fewer color stops than required. -/
  | tooFewStops (found required : Nat)
deriving DecidableEq

namespace ConversionError

/-- The short name of a cause, for reports. -/
def kind : ConversionError → Text
  | notRecognized _ => "not-recognized".toList
  | malformedStop _ => "malformed-stop".toList
  | unsupportedDirection _ => "unsupported-direction".toList
  | nonPercentagePosition _ _ => "non-percentage-position".toList
  | tooFewStops _ _ => "too-few-stops".toList

/-- The sentence that tells a reader the cause. -/
def message : ConversionError → Text
  | notRecognized input =>
    "Not a supported linear-gradient expression: ".toList ++ input.quoted
  | malformedStop token =>
    "Could not extract a color from color stop ".toList ++ token.quoted
  | unsupportedDirection direction =>
    "The direction ".toList ++ direction ++ " can't be converted to legacy syntax".toList
  | nonPercentagePosition color position =>
    "The position of the ".toList ++ color ++ " color stop is not a percentage: ".toList ++ position
  | tooFewStops found required =>
    "A gradient needs at least ".toList ++ Text.ofNat required ++ " color stops, found ".toList ++
      Text.ofNat found

end ConversionError

end LegacyGradient
