/-
  LegacyGradient.Json.Number

  The JSON form of floating point numbers. Numbers between 10^-5 and 10^16 are written with all
  digits in their places and a fraction in any case; all others with one digit before the point and
  a signed power of ten. What is not finite has no number and is written as null.
-/
import LegacyGradient.Decimal.Shortest

namespace LegacyGradient

namespace Decimal

/-- The form with one digit before the point and a signed power of ten after it. -/
def scientific (d : Decimal) : Text :=
  let power := d.leadingPlace
  let sign := if power < 0 then '-' else '+'
  match d.digits with
  | [] => []
  | [digit] => digit :: 'e' :: sign :: Text.ofNat power.natAbs
  | digit :: digits => digit :: '.' :: digits ++ 'e' :: sign :: Text.ofNat power.natAbs

end Decimal

namespace Json

/-- The number at a rank: the fewest digits that read back, midpoints going to the even digit. -/
def finiteText (r : Binary64.Rank) : Text :=
  if r = .zero then "0.0".toList
  else
    let d := Decimal.shortest .even r
    if -5 ≤ d.leadingPlace ∧ d.leadingPlace < 16 then
      if 0 ≤ d.place then d.positional ++ ".0".toList else d.positional
    else d.scientific

/-- The JSON text of a floating point number. -/
def numberText : Binary64 → Text
  | .nan => "null".toList
  | .ranked negative r =>
    if r = .top then "null".toList
    else if negative then '-' :: finiteText r else finiteText r

end Json

end LegacyGradient
