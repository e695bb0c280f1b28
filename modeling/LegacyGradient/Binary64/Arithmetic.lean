/-
  LegacyGradient.Binary64.Arithmetic

  Arithmetic on floating point numbers: each result is the exact one, rounded once. Sums of opposite
  infinities, products of zero and infinity, and quotients of two zeros or two infinities are NaN,
  and NaN spreads. An exact sum of zero is negative only if both terms are; the sign of a product
  or quotient is that of its factors, zeros included.
-/
import LegacyGradient.Binary64.Rounding

namespace LegacyGradient.Binary64

/-- The same distance from zero, on the other side. -/
def neg : Binary64 → Binary64
  | nan => nan
  | ranked s r => ranked (!s) r

/-- The sum. -/
def add : Binary64 → Binary64 → Binary64
  | ranked s r, ranked s' r' =>
    if r = .top then
      if r' = .top ∧ s ≠ s' then nan else ranked s r
    else if r' = .top then ranked s' r'
    else ofRatOrZero (s && s') ((ranked s r).toRat + (ranked s' r').toRat)
  | _, _ => nan

/-- The product. -/
def mul : Binary64 → Binary64 → Binary64
  | ranked s r, ranked s' r' =>
    if r = .top ∨ r' = .top then
      if r = .zero ∨ r' = .zero then nan else ranked (s != s') .top
    else ofRatOrZero (s != s') ((ranked s r).toRat * (ranked s' r').toRat)
  | _, _ => nan

/-- The quotient. -/
def div : Binary64 → Binary64 → Binary64
  | ranked s r, ranked s' r' =>
    if r = .top then
      if r' = .top then nan else ranked (s != s') .top
    else if r' = .top then ranked (s != s') .zero
    else if r' = .zero then
      if r = .zero then nan else ranked (s != s') .top
    else ofRatOrZero (s != s') ((ranked s r).toRat / (ranked s' r').toRat)
  | _, _ => nan

/-- The remainder of a division whose quotient is cut toward zero. It has the sign of the dividend
and is exact: it is a multiple of both spacings and smaller than both arguments. -/
def rem : Binary64 → Binary64 → Binary64
  | ranked s r, ranked _ r' =>
    if r = .top ∨ r' = .zero then nan
    else if r' = .top then ranked s r
    else
      let rest := mkRat (r.units % r'.units) (1 <<< 1074)
      ofRatOrZero s (if s then -rest else rest)
  | _, _ => nan

/-- The largest integer that is not greater. A zero keeps its sign. -/
def floor : Binary64 → Binary64
  | nan => nan
  | ranked s r => if r = .top then ranked s r else ofRatOrZero s ((ranked s r).toRat.floor : Rat)

instance : Neg Binary64 := ⟨neg⟩
instance : Add Binary64 := ⟨add⟩
instance : Sub Binary64 := ⟨fun x y => x + -y⟩
instance : Mul Binary64 := ⟨mul⟩
instance : Div Binary64 := ⟨div⟩
instance : Mod Binary64 := ⟨rem⟩

/-- A half. -/
def half : Binary64 := ofRat (1 / 2)

/-- The number itself if it is positive, and zero if it is not, as for NaN. -/
def atLeastZero (x : Binary64) : Binary64 := if 0 < x then x else 0

end LegacyGradient.Binary64
