/-
  LegacyGradient.Text.Digits

  Digits and the natural numbers they denote, decimal ones in both directions.
-/
import LegacyGradient.Text.Basic

namespace LegacyGradient.Text

/-- The decimal digits of a natural number, most significant first and without leading zeros. -/
def ofNat (n : Nat) : Text := Nat.toDigits 10 n

/-- The value of a decimal digit. -/
def digitValue (c : Char) : Nat := c.toNat - '0'.toNat

/-- The natural number that a run of decimal digits denotes; no digits denote zero. -/
def natOfDigits (t : Text) : Nat := t.foldl (fun n c => 10 * n + digitValue c) 0

/-- The value of a hexadecimal digit, of either case. -/
def hexDigitValue? (c : Char) : Option Nat :=
  if c.isDigit then some (digitValue c)
  else if 'a' ≤ c ∧ c ≤ 'f' then some (c.toNat - 'a'.toNat + 10)
  else if 'A' ≤ c ∧ c ≤ 'F' then some (c.toNat - 'A'.toNat + 10)
  else none

end LegacyGradient.Text
