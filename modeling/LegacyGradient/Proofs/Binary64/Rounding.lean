/-
  LegacyGradient.Proofs.Binary64.Rounding

  Rounding to the nearest number. It keeps the order (`nearestRank_mono`), leaves alone what is a
  number already (`nearestRank_toRat`), and moves a number away from zero by no more than half the
  spacing there (`toRat_nearestRank_le`).

  Everything is shown for the place that a quotient of natural numbers is rounded to. Places go on
  where ranks end, so that infinity needs no case of its own until the place is cut off to a rank.
-/
import LegacyGradient.Proofs.Binary64.Arithmetic
import Mathlib.Algebra.Order.Field.Basic
import Mathlib.Data.Rat.Lemmas
import Mathlib.Algebra.Order.Ring.Unbundled.Rat
import Mathlib.Tactic.FieldSimp
import Mathlib.Tactic.Linarith
import Mathlib.Tactic.Positivity
import Mathlib.Tactic.Ring

namespace LegacyGradient.Binary64

variable {n d n' d' m j k k' shift : Nat} {q q' : Rat} {r r' : Rank}

/-! ## Rounding to integers -/

theorem divHalfEven_mul (m : Nat) (hd : 0 < d) : divHalfEven (m * d) d = m := by
  simp only [divHalfEven, Nat.mul_div_cancel m hd, Nat.mul_mod_left, Nat.mul_zero, if_pos hd]

/-- The nearest integer is no more than a half too large. -/
theorem two_mul_divHalfEven_mul_le (n d : Nat) : 2 * (divHalfEven n d * d) ≤ 2 * n + d := by
  have hn : n / d * d + n % d = n := Nat.div_add_mod' n d
  simp only [divHalfEven]
  split
  · omega
  · next hrest =>
    split
    · rw [Nat.add_mul]
      omega
    · have heven : n / d % 2 * d ≤ 1 * d := Nat.mul_le_mul_right d (by omega)
      rw [Nat.add_mul]
      omega

theorem divHalfEven_mono (hd : 0 < d) (hd' : 0 < d') (h : n * d' ≤ n' * d) :
    divHalfEven n d ≤ divHalfEven n' d' := by
  have hn : n / d * d + n % d = n := Nat.div_add_mod' n d
  have hn' : n' / d' * d' + n' % d' = n' := Nat.div_add_mod' n' d'
  have hfloor : n / d ≤ n' / d' := by
    rw [Nat.le_div_iff_mul_le hd']
    refine Nat.le_of_mul_le_mul_right (Nat.le_trans ?_ h) hd
    rw [Nat.mul_right_comm]
    exact Nat.mul_le_mul_right d' (Nat.div_mul_le_self n d)
  have hup : n' / d' ≤ divHalfEven n' d' := by
    simp only [divHalfEven]
    split
    · exact Nat.le_refl _
    · split <;> omega
  rcases Nat.lt_or_eq_of_le hfloor with hlt | heq
  · exact Nat.le_trans (divHalfEven_le n d) (Nat.le_trans hlt hup)
  · -- with the same floor the remainders decide, as parts of the divisors
    have hrest : n % d * d' ≤ n' % d' * d := by
      have : n / d * d * d' + n % d * d' ≤ n / d * d' * d + n' % d' * d := by
        rw [← Nat.add_mul, hn, heq, ← Nat.add_mul, hn']
        exact h
      rw [Nat.mul_right_comm (n / d) d d'] at this
      omega
    by_cases hlow : 2 * (n % d) < d
    · have : divHalfEven n d = n / d := by simp only [divHalfEven, if_pos hlow]
      omega
    · -- the second remainder is a half at least if the first is, and more if the first is more
      have hhalf : d * d' ≤ 2 * (n' % d') * d := by
        have := Nat.mul_le_mul_right d' (Nat.not_lt.1 hlow)
        rw [Nat.mul_assoc] at this ⊢
        omega
      have hlow' : ¬ 2 * (n' % d') < d' := by
        intro hlt
        have := Nat.mul_lt_mul_of_pos_right hlt hd
        rw [Nat.mul_comm d' d] at this
        omega
      by_cases hhigh : d < 2 * (n % d)
      · have hhigh' : d' < 2 * (n' % d') := by
          have := Nat.mul_lt_mul_of_pos_right hhigh hd'
          rw [Nat.mul_assoc] at this
          refine Nat.lt_of_mul_lt_mul_right (a := d) ?_
          rw [Nat.mul_comm d' d, Nat.mul_assoc]
          omega
        simp only [divHalfEven, if_neg hlow, if_neg hlow', if_pos hhigh, if_pos hhigh', heq]
        exact Nat.le_refl _
      · simp only [divHalfEven, if_neg hlow, if_neg hlow', if_neg hhigh, heq]
        split <;> omega

/-! ## Places -/

/-- The value at a place, as a multiple of 2^-1074. The spacing goes on doubling beyond infinity. -/
def unitsAt (k : Nat) : Nat :=
  if k < 2 * binade then k else (binade + k % binade) <<< (k / binade - 1)

/-- The place that a quotient is rounded to. -/
def nearestPlace (n d : Nat) : Nat :=
  let shift := (n / d).log2 - 52
  shift * binade + divHalfEven n (d <<< shift)

theorem units_eq (r : Rank) : r.units = unitsAt r.val := rfl

/-- The `m`-th place of a binade, counted with the places of the binade before it; the end of the
binade is the beginning of the next. -/
theorem unitsAt_eq (hm : m ≤ 2 * binade) (h : shift = 0 ∨ binade ≤ m) :
    unitsAt (shift * binade + m) = m * 2 ^ shift := by
  have hpos : 0 < binade := by decide
  by_cases hlow : shift * binade + m < 2 * binade
  · -- below the second binade the places are the units
    have hshift : shift = 0 := by
      by_contra hne
      have hle := h.resolve_left hne
      have := Nat.mul_le_mul_right binade (show 1 ≤ shift by omega)
      omega
    subst hshift
    rw [unitsAt, if_pos hlow, Nat.zero_mul, Nat.zero_add, Nat.pow_zero, Nat.mul_one]
  · rw [unitsAt, if_neg hlow]
    rcases Nat.lt_or_eq_of_le hm with hlt | rfl
    · have hle : binade ≤ m := by
        refine h.resolve_left fun hshift => ?_
        rw [hshift, Nat.zero_mul, Nat.zero_add] at hlow
        exact hlow hlt
      obtain ⟨j, rfl⟩ := Nat.exists_eq_add_of_le hle
      have hj : j < binade := by omega
      have hsum : shift * binade + (binade + j) = j + (shift + 1) * binade := by
        rw [Nat.succ_mul]
        omega
      rw [hsum, Nat.add_mul_mod_self_right, Nat.mod_eq_of_lt hj, Nat.add_mul_div_right _ _ hpos,
        Nat.div_eq_of_lt hj, Nat.zero_add, Nat.add_sub_cancel, Nat.shiftLeft_eq]
    · have hsum : shift * binade + 2 * binade = (shift + 2) * binade := (Nat.add_mul ..).symm
      rw [hsum, Nat.mul_mod_left, Nat.mul_div_cancel _ hpos, Nat.add_zero,
        show shift + 2 - 1 = shift + 1 from rfl, Nat.shiftLeft_eq, Nat.pow_succ', ← Nat.mul_assoc,
        Nat.mul_comm binade 2]

/-- Every place is one of a binade. -/
theorem exists_place_eq (k : Nat) :
    ∃ shift m, k = shift * binade + m ∧ m < 2 * binade ∧ (shift = 0 ∨ binade ≤ m) := by
  have hpos : 0 < binade := by decide
  have hmod := Nat.mod_lt k hpos
  have hk := Nat.div_add_mod' k binade
  by_cases hlow : k < 2 * binade
  · exact ⟨0, k, by omega, hlow, .inl rfl⟩
  · have hdiv : 2 ≤ k / binade := (Nat.le_div_iff_mul_le hpos).2 (Nat.not_lt.1 hlow)
    refine ⟨k / binade - 1, binade + k % binade, ?_, by omega, .inr (Nat.le_add_right ..)⟩
    rw [Nat.sub_mul, Nat.one_mul]
    have := Nat.mul_le_mul_right binade hdiv
    omega

/-- Fewer than 2^53 times a power of two units are the value at some place. -/
theorem exists_unitsAt_eq (hj : j < 2 * binade) (n : Nat) : ∃ k, unitsAt k = j * 2 ^ n := by
  by_cases hzero : j = 0
  · refine ⟨0, ?_⟩
    rw [hzero, Nat.zero_mul]
    decide
  · -- doubled as long as it is below a full significand and twos are left
    have hlog : j.log2 < 53 := (Nat.log2_lt hzero).2 hj
    let twos := min n (52 - j.log2)
    have hvalue : j * 2 ^ n = j * 2 ^ twos * 2 ^ (n - twos) := by
      rw [Nat.mul_assoc, ← Nat.pow_add]
      congr 2
      omega
    have hupper : j * 2 ^ twos ≤ 2 * binade := by
      calc j * 2 ^ twos ≤ 2 ^ (j.log2 + 1) * 2 ^ (52 - j.log2) :=
            Nat.mul_le_mul (Nat.le_of_lt Nat.lt_log2_self)
              (Nat.pow_le_pow_right (by decide) (Nat.min_le_right ..))
        _ = 2 ^ 53 := by
            rw [← Nat.pow_add]
            congr 1
            omega
        _ = 2 * binade := rfl
    have hlower : n - twos = 0 ∨ binade ≤ j * 2 ^ twos := by
      by_cases hle : n ≤ 52 - j.log2
      · left
        omega
      · right
        have htwos : twos = 52 - j.log2 := Nat.min_eq_right (by omega)
        calc binade = 2 ^ j.log2 * 2 ^ (52 - j.log2) := by
              rw [← Nat.pow_add, show j.log2 + (52 - j.log2) = 52 by omega]
              rfl
          _ ≤ j * 2 ^ twos := by
              rw [htwos]
              exact Nat.mul_le_mul_right _ (Nat.log2_self_le hzero)
    exact ⟨_, (unitsAt_eq hupper hlower).trans hvalue.symm⟩

/-- The binade of a quotient and the place in it. -/
structure InBinade (n d shift m : Nat) : Prop where
  /-- The place in the binade is rounded. -/
  place : m = divHalfEven n (d * 2 ^ shift)
  /-- The quotient lies below the end of the binade. -/
  lt : n < 2 * binade * (d * 2 ^ shift)
  /-- It does not lie below the beginning, unless the binade is the first. -/
  le : shift = 0 ∨ binade * (d * 2 ^ shift) ≤ n

theorem exists_nearestPlace_eq (hd : 0 < d) (n : Nat) :
    ∃ shift m, nearestPlace n d = shift * binade + m ∧ InBinade n d shift m := by
  refine ⟨(n / d).log2 - 52, divHalfEven n (d * 2 ^ ((n / d).log2 - 52)), ?_, rfl, ?_, ?_⟩
  · rw [nearestPlace, Nat.shiftLeft_eq]
  · have hlog : n / d < 2 ^ ((n / d).log2 + 1) := Nat.lt_log2_self
    have hpow : 2 ^ ((n / d).log2 + 1) ≤ 2 * binade * 2 ^ ((n / d).log2 - 52) := by
      rw [show 2 * binade = 2 ^ 53 from rfl, ← Nat.pow_add]
      exact Nat.pow_le_pow_right (by decide) (by omega)
    have := (Nat.div_lt_iff_lt_mul hd).1 (Nat.lt_of_lt_of_le hlog hpow)
    rwa [Nat.mul_assoc, Nat.mul_comm (2 ^ _) d] at this
  · by_cases hshift : (n / d).log2 - 52 = 0
    · exact .inl hshift
    · right
      have hne : n / d ≠ 0 := by
        intro hzero
        rw [hzero] at hshift
        exact hshift (by decide)
      have hlog : 2 ^ (n / d).log2 ≤ n / d := Nat.log2_self_le hne
      have hpow : binade * 2 ^ ((n / d).log2 - 52) = 2 ^ (n / d).log2 := by
        rw [show binade = 2 ^ 52 from rfl, ← Nat.pow_add]
        congr 1
        omega
      rw [← hpow] at hlog
      have := (Nat.le_div_iff_mul_le hd).1 hlog
      rwa [Nat.mul_assoc, Nat.mul_comm (2 ^ _) d] at this

theorem InBinade.bounds (h : InBinade n d shift m) (hd : 0 < d) :
    m ≤ 2 * binade ∧ (shift = 0 ∨ binade ≤ m) := by
  obtain ⟨rfl, hlt, hle⟩ := h
  have hpos : 0 < d * 2 ^ shift := Nat.mul_pos hd (Nat.two_pow_pos shift)
  constructor
  · rw [← divHalfEven_mul (2 * binade) hpos]
    exact divHalfEven_mono hpos hpos (Nat.mul_le_mul_right _ (Nat.le_of_lt hlt))
  · refine hle.imp id fun hle => ?_
    rw [← divHalfEven_mul binade hpos]
    exact divHalfEven_mono hpos hpos (Nat.mul_le_mul_right _ hle)

/-- A larger quotient is rounded to no smaller place. -/
theorem nearestPlace_mono (hd : 0 < d) (hd' : 0 < d') (h : n * d' ≤ n' * d) :
    nearestPlace n d ≤ nearestPlace n' d' := by
  obtain ⟨shift, m, hplace, hin⟩ := exists_nearestPlace_eq hd n
  obtain ⟨shift', m', hplace', hin'⟩ := exists_nearestPlace_eq hd' n'
  obtain ⟨hm, -⟩ := hin.bounds hd
  obtain ⟨-, hm'⟩ := hin'.bounds hd'
  rw [hplace, hplace']
  rcases Nat.lt_trichotomy shift shift' with hlt | rfl | hgt
  · -- the end of the lower binade is not beyond the beginning of the higher one
    have hle := Nat.mul_le_mul_right binade (Nat.succ_le_of_lt hlt)
    rw [Nat.succ_mul] at hle
    omega
  · have hpos := Nat.two_pow_pos shift
    rw [hin.place, hin'.place]
    refine Nat.add_le_add_left (divHalfEven_mono (Nat.mul_pos hd hpos) (Nat.mul_pos hd' hpos) ?_) _
    rw [← Nat.mul_assoc, ← Nat.mul_assoc]
    exact Nat.mul_le_mul_right _ h
  · -- the first quotient would lie in a higher binade than the second
    exfalso
    have hle := hin.le.resolve_left (by omega)
    have hpow : 2 * 2 ^ shift' ≤ 2 ^ shift := by
      rw [← Nat.pow_succ']
      exact Nat.pow_le_pow_right (by decide) hgt
    have hcalc : n' * d < n * d' := by
      calc n' * d < 2 * binade * (d' * 2 ^ shift') * d := Nat.mul_lt_mul_of_pos_right hin'.lt hd
        _ = binade * (d * (2 * 2 ^ shift')) * d' := by ring
        _ ≤ binade * (d * 2 ^ shift) * d' :=
          Nat.mul_le_mul_right _ (Nat.mul_le_mul_left _ (Nat.mul_le_mul_left _ hpow))
        _ ≤ n * d' := Nat.mul_le_mul_right _ hle
    omega

/-- A quotient that is the value at a place is rounded to this place. -/
theorem nearestPlace_unitsAt (hd : 0 < d) (k : Nat) : nearestPlace (unitsAt k * d) d = k := by
  obtain ⟨shift, m, rfl, hm, hshift⟩ := exists_place_eq k
  rw [unitsAt_eq (Nat.le_of_lt hm) hshift]
  have hlog : (m * 2 ^ shift).log2 - 52 = shift := by
    by_cases hzero : m = 0
    · subst hzero
      have : shift = 0 := hshift.resolve_right (by decide)
      rw [this]
      decide
    · rw [← Nat.shiftLeft_eq, log2_shiftLeft hzero]
      have hupper : m.log2 < 53 := (Nat.log2_lt hzero).2 hm
      rcases hshift with rfl | hle
      · omega
      · have hlower : 52 ≤ m.log2 := (Nat.le_log2 hzero).2 hle
        omega
  rw [nearestPlace, Nat.mul_div_cancel _ hd, hlog, Nat.shiftLeft_eq, Nat.mul_assoc,
    Nat.mul_comm (2 ^ shift) d, divHalfEven_mul m (Nat.mul_pos hd (Nat.two_pow_pos shift))]

theorem unitsAt_le_iff : unitsAt k ≤ unitsAt k' ↔ k ≤ k' := by
  have hle : ∀ {k k'}, unitsAt k ≤ unitsAt k' → k ≤ k' := by
    intro k k' h
    rw [← nearestPlace_unitsAt Nat.one_pos k, ← nearestPlace_unitsAt Nat.one_pos k']
    exact nearestPlace_mono Nat.one_pos Nat.one_pos (by simpa using h)
  refine ⟨hle, fun h => ?_⟩
  by_contra hlt
  obtain rfl := Nat.le_antisymm h (hle (Nat.le_of_lt (Nat.not_le.1 hlt)))
  exact hlt (Nat.le_refl _)

/-- The value at the nearest place is too large by half a unit, or by half the spacing of the binade,
which is a small part of the quotient. -/
theorem unitsAt_nearestPlace_le (hd : 0 < d) (n : Nat) :
    2 * binade * (unitsAt (nearestPlace n d) * d) ≤ 2 * binade * n + binade * d + n := by
  obtain ⟨shift, m, hplace, hin⟩ := exists_nearestPlace_eq hd n
  obtain ⟨hm, hshift⟩ := hin.bounds hd
  have hround := two_mul_divHalfEven_mul_le n (d * 2 ^ shift)
  rw [← hin.place] at hround
  have hspacing : binade * (d * 2 ^ shift) ≤ binade * d + n := by
    rcases hin.le with rfl | hle
    · rw [Nat.pow_zero, Nat.mul_one]
      exact Nat.le_add_right ..
    · exact Nat.le_trans hle (Nat.le_add_left ..)
  rw [hplace, unitsAt_eq hm hshift]
  calc 2 * binade * (m * 2 ^ shift * d) = binade * (2 * (m * (d * 2 ^ shift))) := by ring
    _ ≤ binade * (2 * n + d * 2 ^ shift) := Nat.mul_le_mul_left _ hround
    _ = 2 * binade * n + binade * (d * 2 ^ shift) := by ring
    _ ≤ 2 * binade * n + (binade * d + n) := Nat.add_le_add_left hspacing _
    _ = 2 * binade * n + binade * d + n := (Nat.add_assoc ..).symm

/-! ## Ranks -/

/-- The number of units in one. -/
def unitsPerOne : Nat := 1 <<< 1074

theorem unitsPerOne_eq (hk : k ≤ 1074) : unitsPerOne = 2 ^ k * 2 ^ (1074 - k) := by
  rw [unitsPerOne, Nat.one_shiftLeft, ← Nat.pow_add, Nat.add_sub_cancel' hk]

theorem two_pow_le_unitsPerOne (hk : k ≤ 1074) : (2 ^ k : Rat) ≤ unitsPerOne := by
  have hnat : 2 ^ k ≤ unitsPerOne := by
    rw [unitsPerOne_eq hk]
    exact Nat.le_mul_of_pos_right _ (Nat.two_pow_pos _)
  rw [← Nat.cast_two, ← Nat.cast_pow]
  exact Nat.cast_le.2 hnat

theorem unitsPerOne_pos : (0 : Rat) < unitsPerOne := by
  have hone := two_pow_le_unitsPerOne (Nat.zero_le 1074)
  rw [pow_zero] at hone
  exact zero_lt_one.trans_le hone

theorem Rank.toRat_eq (r : Rank) : r.toRat = unitsAt r.val / unitsPerOne := by
  rw [Rank.toRat, units_eq, Rat.mkRat_eq_div]
  rfl

theorem shiftLeft_eq_mul (n k : Nat) : n <<< k = n * 1 <<< k := by
  rw [Nat.shiftLeft_eq, Nat.shiftLeft_eq, Nat.one_mul]

theorem nearestRank_val (q : Rat) :
    (nearestRank q).val = min (nearestPlace (q.num.natAbs * unitsPerOne) q.den) topRank := by
  rw [unitsPerOne, ← shiftLeft_eq_mul]
  rfl

theorem abs_eq_natAbs_div (q : Rat) : |q| = q.num.natAbs / q.den := by
  rw [Rat.abs_def, Rat.divInt_eq_div]
  rfl

theorem Rank.toRat_le_toRat_iff : r.toRat ≤ r'.toRat ↔ r ≤ r' := by
  rw [Rank.toRat_eq, Rank.toRat_eq, div_le_div_iff_of_pos_right unitsPerOne_pos, Nat.cast_le,
    unitsAt_le_iff]
  rfl

theorem Rank.toRat_lt_toRat_iff : r.toRat < r'.toRat ↔ r < r' := by
  rw [← not_le, ← not_le, Rank.toRat_le_toRat_iff]

/-- A number is nearest to itself. -/
theorem nearestRank_toRat (r : Rank) : nearestRank r.toRat = r := by
  have hden : (r.toRat.den : Rat) ≠ 0 := Nat.cast_ne_zero.2 r.toRat.den_nz
  have habs : (unitsAt r.val : Rat) / unitsPerOne = r.toRat.num.natAbs / r.toRat.den := by
    rw [← abs_eq_natAbs_div, abs_of_nonneg r.toRat_nonneg, Rank.toRat_eq]
  rw [div_eq_div_iff unitsPerOne_pos.ne' hden] at habs
  have hratio : r.toRat.num.natAbs * unitsPerOne = unitsAt r.val * r.toRat.den := by
    exact_mod_cast habs.symm
  apply Fin.ext
  rw [nearestRank_val, hratio, nearestPlace_unitsAt r.toRat.den_pos]
  exact Nat.min_eq_left (Nat.le_of_lt_succ r.isLt)

/-- What lies farther from zero is rounded no nearer to it. -/
theorem nearestRank_mono (h : |q| ≤ |q'|) : nearestRank q ≤ nearestRank q' := by
  have hden : (0 : Rat) < q.den := Nat.cast_pos.2 q.den_pos
  have hden' : (0 : Rat) < q'.den := Nat.cast_pos.2 q'.den_pos
  rw [abs_eq_natAbs_div, abs_eq_natAbs_div, div_le_div_iff₀ hden hden'] at h
  have hnat : q.num.natAbs * q'.den ≤ q'.num.natAbs * q.den := by exact_mod_cast h
  have hplace : nearestPlace (q.num.natAbs * unitsPerOne) q.den ≤
      nearestPlace (q'.num.natAbs * unitsPerOne) q'.den := by
    apply nearestPlace_mono q.den_pos q'.den_pos
    rw [Nat.mul_right_comm, Nat.mul_right_comm _ _ q.den]
    exact Nat.mul_le_mul_right _ hnat
  show (nearestRank q).val ≤ (nearestRank q').val
  rw [nearestRank_val, nearestRank_val]
  omega

theorem nearestRank_le (h : |q| ≤ r.toRat) : nearestRank q ≤ r := by
  rw [← nearestRank_toRat r]
  apply nearestRank_mono
  rwa [abs_of_nonneg r.toRat_nonneg]

/-- The nearest number is no farther from zero than by a small part, or by half a unit. -/
theorem toRat_nearestRank_le (q : Rat) :
    (nearestRank q).toRat ≤ |q| + |q| / 2 ^ 53 + 1 / (2 * unitsPerOne) := by
  have hden : (0 : Rat) < q.den := Nat.cast_pos.2 q.den_pos
  have hcut : unitsAt (nearestRank q).val ≤
      unitsAt (nearestPlace (q.num.natAbs * unitsPerOne) q.den) := by
    rw [unitsAt_le_iff, nearestRank_val]
    exact Nat.min_le_left ..
  have hunits := Nat.le_trans
    (Nat.mul_le_mul_left (2 * binade) (Nat.mul_le_mul_right q.den hcut))
    (unitsAt_nearestPlace_le q.den_pos (q.num.natAbs * unitsPerOne))
  have hrat : (2 * binade * (unitsAt (nearestRank q).val * q.den) : Rat) ≤
      2 * binade * (q.num.natAbs * unitsPerOne) + binade * q.den + q.num.natAbs * unitsPerOne := by
    exact_mod_cast hunits
  have hpow : (2 ^ 53 : Rat) = 2 * binade := by norm_num [binade]
  have hbinade : (0 : Rat) < binade := Nat.cast_pos.2 (by decide)
  have hunit := unitsPerOne_pos
  rw [Rank.toRat_eq, abs_eq_natAbs_div, hpow]
  generalize (unitsAt (nearestRank q).val : Rat) = u at hrat ⊢
  generalize (q.num.natAbs : Rat) = a at hrat ⊢
  generalize (q.den : Rat) = d at hrat hden ⊢
  generalize (unitsPerOne : Rat) = e at hrat hunit ⊢
  generalize (binade : Rat) = b at hrat hbinade ⊢
  calc u / e = 2 * b * (u * d) / (2 * b * d * e) := by field_simp
    _ ≤ (2 * b * (a * e) + b * d + a * e) / (2 * b * d * e) := by gcongr
    _ = a / d + a / d / (2 * b) + 1 / (2 * e) := by
      field_simp
      ring

end LegacyGradient.Binary64
