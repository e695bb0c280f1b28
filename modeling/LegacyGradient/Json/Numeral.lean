/-
  LegacyGradient.Json.Numeral

  Reading JSON numbers. A number without point and power that fits into 64 bits is an integer; of
  the negative ones, zero is not. Any other number is a floating point number, found from a
  significand of at most 64 bits and a power of ten: digits of the fraction that no longer fit are
  dropped, digits before the point that no longer fit raise the power. The significand is rounded,
  and scaled by one multiplication or division with a power of ten that is rounded too, so the
  result may differ from the nearest number by a little. Beyond 10^308 division goes in steps, and
  what would become infinite is refused.
-/
import LegacyGradient.Binary64.Arithmetic
import LegacyGradient.Json.Reader

namespace LegacyGradient.Json

/-! ## The written number -/

/-- The parts of a number as they are written. -/
structure NumeralText where
  /-- Whether a minus sign stands before the digits. -/
  negative : Bool
  /-- The digits before the point. -/
  whole : Text
  /-- The digits after the point, if there is one. -/
  fraction : Option Text
  /-- The power of ten, if there is one. -/
  power : Option Int

namespace Reader

/-- A run of at least one digit. A text that ends before it is a problem of its own. -/
def digits1 (atEnd : Problem) : Reader Text := do
  match ← here with
  | none => fail atEnd
  | some c => if c.isDigit then takeRun Char.isDigit else fail .malformed

/-- The digits before the point: a zero alone, or digits that do not begin with a zero. -/
def wholeDigits (atEnd : Problem) : Reader Text := do
  let first ← here
  let digits ← digits1 atEnd
  if first = some '0' ∧ digits.length ≠ 1 then fail .malformed else pure digits

/-- The point and the digits after it, if there is a point. -/
def fractionDigits (atEnd : Problem) : Reader (Option Text) := do
  if (← here) = some '.' then do
    skip1
    return some (← digits1 atEnd)
  else return none

/-- The power of ten, if there is one. -/
def powerOfTen (atEnd : Problem) : Reader (Option Int) := do
  let letter ← here
  if letter = some 'e' ∨ letter = some 'E' then do
    skip1
    let sign ← here
    if sign = some '+' ∨ sign = some '-' then skip1
    let digits ← digits1 atEnd
    let distance : Int := Text.natOfDigits digits
    return some (if sign = some '-' then -distance else distance)
  else return none

/-- The parts of a number. The problem is for a text that ends where a digit has to follow. -/
def numeralText (atEnd : Problem) : Reader NumeralText := do
  let negative := (← here) = some '-'
  if negative then skip1
  let whole ← wholeDigits atEnd
  let fraction ← fractionDigits atEnd
  let power ← powerOfTen atEnd
  return { negative, whole, fraction, power }

end Reader

/-! ## Its value -/

/-- The value of a JSON number. -/
inductive Numeral where
  /-- A natural number of at most 64 bits. -/
  | natural (n : Nat)
  /-- A negative integer of at most 64 bits. -/
  | negative (i : Int)
  /-- Any other number. -/
  | floating (x : Binary64)
deriving DecidableEq

namespace Numeral

/-- The largest number of 64 bits. -/
def maxWord : Nat := 0xFFFFFFFFFFFFFFFF

/-- A number with a further digit at its end, if it still has at most 64 bits. -/
def withDigit? (n : Nat) (c : Char) : Option Nat :=
  let m := 10 * n + Text.digitValue c
  if m ≤ maxWord then some m else none

/-- A number of at most 64 bits with digits put at its end as long as it fits, and the digits left
over. -/
def withDigits (n : Nat) : Text → Nat × Text
  | [] => (n, [])
  | c :: rest =>
    match withDigit? n c with
    | some m => withDigits m rest
    | none => (n, c :: rest)

/-- A power of ten as a floating point number. -/
def tenPow (k : Nat) : Binary64 := .ofRat (10 ^ k)

/-- A number times a power of ten, or `none` if that is infinite. -/
def scale? (x : Binary64) (power : Int) : Option Binary64 :=
  if power.natAbs ≤ 308 then
    if 0 ≤ power then
      let y := x * tenPow power.natAbs
      if y.IsFinite then some y else none
    else some (x / tenPow power.natAbs)
  else if x.IsZero then some x
  else if 0 ≤ power then none
  -- tenPow 308 is the largest power of ten that is finite
  else scale? (x / tenPow 308) (power + 308)
termination_by power.natAbs
decreasing_by omega

/-- The value of a number, if it is finite. -/
def ofText? (t : NumeralText) : Option Numeral :=
  let (significand, unread) := withDigits 0 t.whole
  match t.fraction, t.power, unread with
  -- an integer, if it fits into 64 bits with its sign
  | none, none, [] =>
    if !t.negative then some (natural significand)
    else if significand ≠ 0 ∧ significand ≤ 0x8000000000000000 then
      some (negative (-significand))
    else some (floating (-.ofNat significand))
  | fraction, power, unread =>
    let fraction := fraction.getD []
    -- the digits of the fraction go on where those before the point stopped
    let (significand, dropped) := withDigits significand fraction
    let places : Int := fraction.length - dropped.length
    let power := power.getD 0 + unread.length - places
    (scale? (.ofNat significand) power).map fun x => floating (if t.negative then -x else x)

/-- The name of a number in messages. -/
def found : Numeral → Found
  | natural n => .integer n
  | negative i => .integer i
  | floating x => .number x

/-- The floating point number nearest to a number. -/
def toBinary64 : Numeral → Binary64
  | natural n => .ofNat n
  | negative i => .ofRat i
  | floating x => x

end Numeral

/-- A number. -/
def Reader.numeral : Reader Numeral := do
  match Numeral.ofText? (← numeralText .truncated) with
  | some n => return n
  | none => fail .malformed

end LegacyGradient.Json
