/-
  LegacyGradient.Binary64.Rounding

  The number nearest to a rational. Between two neighbours the nearer wins and a half goes to the
  one of even rank, that is, to the even significand; what lies half a spacing or more above the
  largest finite number rounds to infinity. Every operation of this library rounds its exact result
  once, with `ofRat` or, where an exact zero takes a sign of its own, with `ofRatOrZero`.
-/
import LegacyGradient.Binary64.Basic

namespace LegacyGradient.Binary64

/-- The quotient of two naturals to the nearest integer, a half going to the even one. -/
def divHalfEven (n d : Nat) : Nat :=
  let floor := n / d
  let rest := 2 * (n % d)
  if rest < d then floor
  else if d < rest then floor + 1
  else floor + floor % 2

/-- The rank of the number nearest to the distance of `q` from zero. The floor of that distance in
units of 2^-1074 tells the binade, and the quotient by the spacing there the place in it. -/
def nearestRank (q : Rat) : Rank :=
  let n := q.num.natAbs <<< 1074
  -- the first binade comes out with shift 0 too, since subtraction stops there
  let shift := (n / q.den).log2 - 52
  -- a quotient that rounds up to 2^53 gives the first rank of the next binade without more ado
  ⟨min (shift * binade + divHalfEven n (q.den <<< shift)) topRank,
    Nat.lt_succ_of_le (Nat.min_le_right _ _)⟩

/-- The number nearest to a rational; zero is the positive one. -/
def ofRat (q : Rat) : Binary64 := ranked (q < 0) (nearestRank q)

/-- The number nearest to a rational; an exact zero is negative if `negativeZero` holds. -/
def ofRatOrZero (negativeZero : Bool) (q : Rat) : Binary64 :=
  if q = 0 then ranked negativeZero .zero else ofRat q

/-- The number nearest to a natural number. -/
def ofNat (n : Nat) : Binary64 := ofRat n

instance (n : Nat) : OfNat Binary64 n := ⟨ofNat n⟩

end LegacyGradient.Binary64
