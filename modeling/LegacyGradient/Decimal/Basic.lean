/-
  LegacyGradient.Decimal.Basic

  Decimal numbers, a significand at a power of ten, and their positional form: all digits in their
  places, a point only where a digit follows it, and a zero before a leading point.
-/
import LegacyGradient.Text.Digits

namespace LegacyGradient

/-- The number `significand * 10 ^ place`. -/
structure Decimal where
  /-- The digits, read as a natural number. -/
  significand : Nat
  /-- The power of ten that the last digit counts. -/
  place : Int
deriving DecidableEq

namespace Decimal

/-- The value of a decimal. -/
def toRat (d : Decimal) : Rat := d.significand * 10 ^ d.place

/-- The digits of the significand. -/
def digits (d : Decimal) : Text := Text.ofNat d.significand

/-- The power of ten that the first digit counts. -/
def leadingPlace (d : Decimal) : Int := d.digits.length - 1 + d.place

/-- The positional form. -/
def positional (d : Decimal) : Text :=
  match d.place with
  | .ofNat zeros => d.digits ++ List.replicate zeros '0'
  | .negSucc n =>
    let places := n + 1
    let wholes := d.digits.length - places
    if places < d.digits.length then d.digits.take wholes ++ '.' :: d.digits.drop wholes
    else '0' :: '.' :: List.replicate (places - d.digits.length) '0' ++ d.digits

end Decimal

end LegacyGradient
