/-
  LegacyGradient.Proofs.Binary64.Closest

  Rounding picks the number that is closest, and of two that are equally close the one of even rank
  (`isClosest_iff`). In the binade of a quotient the numbers are the multiples of one spacing, among
  which the rounded quotient is closest; outside of this binade no number is closer than the one at
  the end of it.
-/
import LegacyGradient.Proofs.Binary64.Nearest

namespace LegacyGradient.Binary64

variable {n d k shift m : Nat} {q : Rat} {r r' : Rank}

/-! ## The closest integer -/

/-- A rounded quotient is no more than a half too small, and even if it is a half away. -/
theorem divHalfEven_spec (hd : 0 < d) (n : Nat) :
    2 * n ≤ 2 * (divHalfEven n d * d) + d ∧
      (2 * (divHalfEven n d * d) = 2 * n + d ∨ 2 * n = 2 * (divHalfEven n d * d) + d →
        divHalfEven n d % 2 = 0) := by
  have hn : n / d * d + n % d = n := Nat.div_add_mod' n d
  have hmod := Nat.mod_lt n hd
  have hsucc : (n / d + 1) * d = n / d * d + d := Nat.succ_mul _ d
  simp only [divHalfEven]
  generalize n / d = floor at *
  generalize n % d = rest at *
  split
  · generalize floor * d = low at *
    omega
  · split
    · rw [hsucc]
      generalize floor * d = low at *
      omega
    · -- the quotient lies halfway, and its floor is made even
      rcases Nat.mod_two_eq_zero_or_one floor with heven | hodd
      · rw [heven, Nat.add_zero]
        generalize floor * d = low at *
        omega
      · rw [hodd, hsucc]
        generalize floor * d = low at *
        omega

/-! ## The closest place -/

theorem unitsAt_lt_iff {k' : Nat} : unitsAt k < unitsAt k' ↔ k < k' := by
  rw [← Nat.not_le, ← Nat.not_le, unitsAt_le_iff]

/-- The value at a place of a binade, multiplied by the divisor. -/
theorem unitsAt_mul_eq (hm : m ≤ 2 * binade) (h : shift = 0 ∨ binade ≤ m) (d : Nat) :
    unitsAt (shift * binade + m) * d = m * (d * 2 ^ shift) := by
  rw [unitsAt_eq hm h]
  ring

/-- The next place is one spacing farther, unless the place is the end of the binade, beyond the
quotient. -/
theorem InBinade.above (h : InBinade n d shift m) (hd : 0 < d) (hk : shift * binade + m < k) :
    m * (d * 2 ^ shift) + d * 2 ^ shift ≤ unitsAt k * d ∨
      n < m * (d * 2 ^ shift) ∧ m * (d * 2 ^ shift) < unitsAt k * d := by
  obtain ⟨hm, hshift⟩ := h.bounds hd
  rcases Nat.lt_or_eq_of_le hm with hlt | rfl
  · left
    have hnext : shift = 0 ∨ binade ≤ m + 1 := hshift.imp_right Nat.le_succ_of_le
    rw [← Nat.succ_mul, ← unitsAt_mul_eq hlt hnext]
    exact Nat.mul_le_mul_right d (unitsAt_le_iff.2 hk)
  · right
    refine ⟨h.lt, ?_⟩
    rw [← unitsAt_mul_eq hm hshift]
    exact Nat.mul_lt_mul_of_pos_right (unitsAt_lt_iff.2 hk) hd

/-- The place before is one spacing nearer to zero, unless the place is the beginning of the binade,
which the quotient reaches. -/
theorem InBinade.below (h : InBinade n d shift m) (hd : 0 < d) (hk : k < shift * binade + m) :
    unitsAt k * d + d * 2 ^ shift ≤ m * (d * 2 ^ shift) ∨
      m * (d * 2 ^ shift) ≤ n ∧ unitsAt k * d < m * (d * 2 ^ shift) := by
  obtain ⟨hm, hshift⟩ := h.bounds hd
  by_cases hinner : shift = 0 ∨ binade < m
  · left
    obtain ⟨j, rfl⟩ : ∃ j, m = j + 1 := by
      refine Nat.exists_eq_succ_of_ne_zero ?_
      rintro rfl
      rcases hinner with rfl | hlt
      · rw [Nat.zero_mul] at hk
        exact Nat.not_lt_zero k hk
      · exact Nat.not_lt_zero _ hlt
    have hprevious : shift = 0 ∨ binade ≤ j := hinner.imp_right Nat.le_of_lt_succ
    rw [Nat.succ_mul, ← unitsAt_mul_eq (Nat.le_of_succ_le hm) hprevious]
    exact Nat.add_le_add_right (Nat.mul_le_mul_right d (unitsAt_le_iff.2 (Nat.le_of_lt_succ hk))) _
  · right
    obtain ⟨hne, hle⟩ := not_or.1 hinner
    obtain rfl : m = binade := Nat.le_antisymm (Nat.not_lt.1 hle) (hshift.resolve_left hne)
    refine ⟨h.le.resolve_left hne, ?_⟩
    rw [← unitsAt_mul_eq hm hshift]
    exact Nat.mul_lt_mul_of_pos_right (unitsAt_lt_iff.2 hk) hd

/-- How far the value at a place is from a quotient, multiplied by the divisor. -/
def distanceAt (n d k : Nat) : Nat := ((unitsAt k * d : Nat) - (n : Int)).natAbs

/-- No place is closer than the nearest one, and another is equally close only if the nearest is
even. -/
theorem distanceAt_nearestPlace (hd : 0 < d) (n : Nat) (hk : k ≠ nearestPlace n d) :
    distanceAt n d (nearestPlace n d) ≤ distanceAt n d k ∧
      (distanceAt n d (nearestPlace n d) = distanceAt n d k → nearestPlace n d % 2 = 0) := by
  obtain ⟨shift, m, hplace, hin⟩ := exists_nearestPlace_eq hd n
  obtain ⟨hm, hshift⟩ := hin.bounds hd
  have hpos : 0 < d * 2 ^ shift := Nat.mul_pos hd (Nat.two_pow_pos shift)
  have hlow := two_mul_divHalfEven_mul_le n (d * 2 ^ shift)
  obtain ⟨hhigh, heven⟩ := divHalfEven_spec hpos n
  rw [← hin.place] at hlow hhigh heven
  have hparity : (shift * binade + m) % 2 = m % 2 := by
    rw [show binade = 2 ^ 51 * 2 from rfl, ← Nat.mul_assoc]
    omega
  simp only [distanceAt]
  rw [hplace] at hk ⊢
  rw [hparity, unitsAt_mul_eq hm hshift]
  rcases Nat.lt_or_gt_of_ne hk with hlt | hgt
  · have hbelow := hin.below hd hlt
    generalize m * (d * 2 ^ shift) = value at *
    generalize unitsAt k * d = other at *
    omega
  · have habove := hin.above hd hgt
    generalize m * (d * 2 ^ shift) = value at *
    generalize unitsAt k * d = other at *
    omega

/-! ## The closest rank -/

/-- No number is closer to `q`, and another is equally close only if this one has an even rank, which
is an even significand. -/
structure Rank.IsClosest (r : Rank) (q : Rat) : Prop where
  /-- The distance of every number is no less. -/
  le : ∀ r' : Rank, |r.toRat - q| ≤ |r'.toRat - q|
  /-- A half goes to the even number. -/
  even : ∀ r' : Rank, r' ≠ r → |r.toRat - q| = |r'.toRat - q| → r.val % 2 = 0

/-- The distance of a number from a fraction, over the common denominator. -/
theorem Rank.abs_toRat_sub (r : Rank) (hq : 0 ≤ q) :
    |r.toRat - q| =
      distanceAt (q.num.natAbs * unitsPerOne) q.den r.val / (unitsPerOne * q.den) := by
  have hunit := unitsPerOne_pos
  have hden : (0 : Rat) < q.den := Nat.cast_pos.2 q.den_pos
  have hvalue : q = q.num.natAbs / q.den := by rw [← abs_eq_natAbs_div, abs_of_nonneg hq]
  have hdistance : (distanceAt (q.num.natAbs * unitsPerOne) q.den r.val : Rat) =
      |(unitsAt r.val * q.den - unitsPerOne * q.num.natAbs : Rat)| := by
    generalize q.num.natAbs = numerator
    rw [distanceAt, Nat.cast_natAbs, Int.cast_abs, mul_comm (unitsPerOne : Rat)]
    push_cast
    rfl
  calc |r.toRat - q| = |(unitsAt r.val / unitsPerOne : Rat) - q.num.natAbs / q.den| := by
        rw [← hvalue, Rank.toRat_eq]
    _ = _ := by
        rw [div_sub_div _ _ hunit.ne' hden.ne', abs_div, abs_of_pos (mul_pos hunit hden), hdistance]

theorem isClosest_iff_distanceAt (hq : 0 ≤ q) :
    r.IsClosest q ↔ ∀ r' : Rank, r' ≠ r →
      distanceAt (q.num.natAbs * unitsPerOne) q.den r.val ≤
          distanceAt (q.num.natAbs * unitsPerOne) q.den r'.val ∧
        (distanceAt (q.num.natAbs * unitsPerOne) q.den r.val =
          distanceAt (q.num.natAbs * unitsPerOne) q.den r'.val → r.val % 2 = 0) := by
  have hpos : (0 : Rat) < unitsPerOne * q.den := mul_pos unitsPerOne_pos (Nat.cast_pos.2 q.den_pos)
  have hle : ∀ r' : Rank, |r.toRat - q| ≤ |r'.toRat - q| ↔
      distanceAt (q.num.natAbs * unitsPerOne) q.den r.val ≤
        distanceAt (q.num.natAbs * unitsPerOne) q.den r'.val := by
    intro r'
    rw [r.abs_toRat_sub hq, r'.abs_toRat_sub hq, div_le_div_iff_of_pos_right hpos, Nat.cast_le]
  have heq : ∀ r' : Rank, |r.toRat - q| = |r'.toRat - q| ↔
      distanceAt (q.num.natAbs * unitsPerOne) q.den r.val =
        distanceAt (q.num.natAbs * unitsPerOne) q.den r'.val := by
    intro r'
    rw [r.abs_toRat_sub hq, r'.abs_toRat_sub hq, div_left_inj' hpos.ne', Nat.cast_inj]
  constructor
  · intro h r' hne
    exact ⟨(hle r').1 (h.le r'), fun hsame => h.even r' hne ((heq r').2 hsame)⟩
  · intro h
    refine ⟨fun r' => ?_, fun r' hne hsame => (h r' hne).2 ((heq r').1 hsame)⟩
    by_cases hne : r' = r
    · rw [hne]
    · exact (hle r').2 (h r' hne).1

/-- Rounding picks the closest number. -/
theorem isClosest_nearestRank (hq : 0 ≤ q) : (nearestRank q).IsClosest q := by
  have hval := nearestRank_val q
  rw [isClosest_iff_distanceAt hq]
  generalize q.num.natAbs * unitsPerOne = n at *
  intro r' hne
  by_cases hle : nearestPlace n q.den ≤ topRank
  · rw [Nat.min_eq_left hle] at hval
    rw [hval]
    exact distanceAt_nearestPlace q.den_pos n fun h => hne (Fin.ext (h.trans hval.symm))
  · -- what is rounded beyond the last rank lies beyond the infinity, which is closest then
    rw [Nat.min_eq_right (Nat.le_of_not_le hle)] at hval
    have hbeyond : unitsAt topRank * q.den ≤ n := by
      by_contra hlt
      have hplace := nearestPlace_mono q.den_pos q.den_pos
        (Nat.mul_le_mul_right q.den (Nat.le_of_not_le hlt))
      rw [nearestPlace_unitsAt q.den_pos] at hplace
      exact hle hplace
    have hother : unitsAt r'.val * q.den ≤ unitsAt topRank * q.den :=
      Nat.mul_le_mul_right _ (unitsAt_le_iff.2 (Nat.le_of_lt_succ r'.isLt))
    rw [hval]
    refine ⟨?_, fun _ => by decide⟩
    simp only [distanceAt]
    omega

/-- Between two numbers that are equally close lies no third one, and one of them has an odd rank. -/
theorem Rank.IsClosest.le_of_isClosest (h : r.IsClosest q) (h' : r'.IsClosest q) : r' ≤ r := by
  by_contra hlt
  have hval := Fin.lt_def.1 (not_le.1 hlt)
  have hne : r' ≠ r := fun heq => hlt heq.le
  have hsame := le_antisymm (h.le r') (h'.le r)
  have heven := h.even r' hne hsame
  have heven' := h'.even r hne.symm hsame.symm
  let between : Rank := ⟨r.val + 1, by omega⟩
  have hlow : r.toRat < between.toRat := Rank.toRat_lt_toRat_iff.2 (Fin.lt_def.2 (Nat.lt_succ_self _))
  have hhigh : between.toRat < r'.toRat :=
    Rank.toRat_lt_toRat_iff.2 (Fin.lt_def.2 (show r.val + 1 < r'.val by omega))
  -- `q` lies halfway between the two
  have hmiddle : r.toRat - q = -(r'.toRat - q) := by
    refine (abs_eq_abs.1 hsame).resolve_left fun heq => ?_
    linarith
  have hcloser : |between.toRat - q| < |r.toRat - q| := by
    rw [abs_of_neg (show r.toRat - q < 0 by linarith), abs_lt]
    constructor <;> linarith
  exact absurd (h.le between) (not_le.2 hcloser)

/-- The closest number is unique, and rounding picks it. -/
theorem isClosest_iff (hq : 0 ≤ q) : r.IsClosest q ↔ r = nearestRank q := by
  have hnearest := isClosest_nearestRank hq
  constructor
  · intro h
    exact le_antisymm (hnearest.le_of_isClosest h) (h.le_of_isClosest hnearest)
  · rintro rfl
    exact hnearest

end LegacyGradient.Binary64
