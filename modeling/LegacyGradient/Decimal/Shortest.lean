/-
  LegacyGradient.Decimal.Shortest

  The decimal with the fewest digits that reads back as a given number. The grids of the decimals
  with a fixed last place are searched from the coarsest on. On each of them only the two
  neighbours of the exact value can be the nearest decimal to read back; the first grid where one
  of them does wins, of two the nearer, and a tie goes as the caller says.
-/
import LegacyGradient.Binary64.Rounding
import LegacyGradient.Decimal.Basic

namespace LegacyGradient

open Binary64 (Rank nearestRank)

/-- Where the midpoint of two neighbours goes. -/
inductive Tie where
  /-- To the larger one. -/
  | up
  /-- To the one with an even last digit. -/
  | even
deriving DecidableEq

namespace Decimal

/-- The power of ten that the first digit of a positive rational counts. The lengths of the
numerator and the denominator leave two candidates. -/
def leadingPlaceOf (q : Rat) : Int :=
  let estimate : Int := (Text.ofNat q.num.natAbs).length - (Text.ofNat q.den).length
  if q < 10 ^ estimate then estimate - 1 else estimate

/-- A decimal reads back as a rank when the number of that rank is the nearest to it. -/
def ReadsBack (r : Rank) (d : Decimal) : Prop := nearestRank d.toRat = r

instance (r : Rank) (d : Decimal) : Decidable (d.ReadsBack r) :=
  inferInstanceAs (Decidable (nearestRank d.toRat = r))

/-- The one of two neighbouring decimals around `q` that is nearer to it. -/
def nearer (tie : Tie) (q : Rat) (below above : Decimal) : Decimal :=
  let toBelow := q - below.toRat
  let toAbove := above.toRat - q
  if toBelow < toAbove then below
  else if toAbove < toBelow then above
  else if tie = .even ∧ below.significand % 2 = 0 then below
  else above

/-- The decimal with this last place that is nearest to the value at a rank, among those that read
back as that rank. -/
def onGrid (tie : Tie) (r : Rank) (place : Int) : Option Decimal :=
  -- any other point of the grid lies behind one of these two, seen from the value
  let floor := (r.toRat / 10 ^ place).floor.toNat
  let below : Decimal := ⟨floor, place⟩
  let above : Decimal := ⟨floor + 1, place⟩
  if below.ReadsBack r then
    if above.ReadsBack r then some (nearer tie r.toRat below above) else some below
  else if above.ReadsBack r then some above
  else none

/-- The value at a rank with all its digits: 2^-1074 is 5^1074 at the place -1074. -/
def exact (r : Rank) : Decimal := ⟨r.units * Nat.pow 5 1074, -1074⟩

/-- The decimal with the fewest digits that reads back as a positive rank. Seventeen digits are
always enough; the first grid is one coarser than the leading digit, for values that round up to a
power of ten. -/
def shortest (tie : Tie) (r : Rank) : Decimal :=
  let first := leadingPlaceOf r.toRat + 1
  ((List.range 18).findSome? fun (i : Nat) => onGrid tie r (first - i)).getD (exact r)

end Decimal

end LegacyGradient
