/-
  LegacyGradient.Proofs.Corners.Turn

  What an angle comes to, less its whole turns. The remainder is exact, since it is not rounded, and
  for an angle that is not negative it is all there is. To a negative remainder one more turn is
  added, and this sum is rounded (`exists_normalize_eq`). Rounding keeps the order, so the remainders
  that are turned to one number are those between two ranks (`turnedBack_eq_iff`).
-/
import LegacyGradient.Corners
import LegacyGradient.Proofs.Binary64.Remainder

namespace LegacyGradient.Angle

open Binary64

variable {degrees : Binary64} {r rest rest' t below low high above : Rank}

/-! ## One turn -/

/-- The rank of a whole turn. -/
def turnRank : Rank := nearestRank 360

theorem turn_eq : (360 : Binary64) = ranked false turnRank := by decide +kernel

theorem toRat_turnRank : turnRank.toRat = 360 := by decide +kernel

theorem turnRank_ne : turnRank ≠ .zero ∧ turnRank ≠ .top := by decide +kernel

/-- One turn less what is left, as it is rounded. -/
def turnedBack (rest : Rank) : Rank := nearestRank (360 - rest.toRat)

theorem toRat_lt_turn (h : rest < turnRank) : rest.toRat < 360 := by
  rw [← toRat_turnRank]
  exact Rank.toRat_lt_toRat_iff.2 h

/-- What is left of an angle after its whole turns, and the angle that is taken for it. -/
theorem exists_normalize_eq (hr : r ≠ .top) :
    ∃ (turns : Nat) (rest : Rank), r.toRat = 360 * turns + rest.toRat ∧ rest < turnRank ∧
      rest.units = r.units % turnRank.units ∧
      normalize (ranked false r) = ranked false rest ∧
      normalize (ranked true r) =
        if rest = .zero then ranked true .zero else ranked false (turnedBack rest) := by
  obtain ⟨turns, rest, hrem, hunits, hsum, hlt⟩ := exists_rem_eq hr turnRank_ne.1 turnRank_ne.2
  rw [toRat_turnRank, mul_comm] at hsum
  have hnonneg : ¬ ranked false rest < 0 := by
    rw [zero_eq, ranked_lt_ranked]
    simp only [signedRank, Bool.false_eq_true, if_false, Rank.zero]
    omega
  refine ⟨turns, rest, hsum, hlt, hunits, ?_, ?_⟩
  · simp only [normalize, turn_eq, hrem, if_neg hnonneg]
  · simp only [normalize, turn_eq, hrem]
    by_cases hzero : rest = .zero
    · -- the negative zero is not below zero
      subst hzero
      rw [if_pos rfl]
      rfl
    · have hneg : ranked true rest < 0 := by
        have hpos : 0 < rest.val := Nat.pos_of_ne_zero fun hval => hzero (Fin.ext hval)
        rw [zero_eq, ranked_lt_ranked]
        simp only [signedRank, if_true, Bool.false_eq_true, if_false, Rank.zero]
        omega
      have htop : rest ≠ .top := ne_top_of_le hlt.le turnRank_ne.2
      have hvalue : (ranked true rest).toRat + (ranked false turnRank).toRat = 360 - rest.toRat := by
        rw [toRat_true, toRat_false, toRat_turnRank]
        ring
      have hback : 0 < 360 - rest.toRat := sub_pos.2 (toRat_lt_turn hlt)
      rw [if_pos hneg, if_neg hzero, add_eq htop turnRank_ne.2, hvalue, ofRatOrZero_of_pos hback]
      rfl

/-- An angle of a whole turn or more lies no lower than the turn. -/
theorem turnRank_le {turns : Nat} (hsum : r.toRat = 360 * turns + rest.toRat) (hturns : turns ≠ 0) :
    turnRank ≤ r := by
  have hone : (1 : Rat) ≤ turns := Nat.one_le_cast.2 (Nat.pos_of_ne_zero hturns)
  have hrest := rest.toRat_nonneg
  rw [← Rank.toRat_le_toRat_iff, toRat_turnRank, hsum]
  linarith

/-- From one turn on the numbers are 2^-44 apart or farther, and what is left of them is a multiple
of that. -/
theorem exists_toRat_eq_of_turn_le (hr : turnRank ≤ r)
    (hunits : rest.units = r.units % turnRank.units) : ∃ j : Nat, rest.toRat = j / 2 ^ 44 := by
  -- 256 begins the binade with this spacing
  have hplace : (1030 + 1) * binade ≤ turnRank.val := by decide +kernel
  have hdvd : 2 ^ 1030 ∣ rest.units := by
    rw [hunits]
    exact (Nat.dvd_mod_iff (two_pow_dvd_unitsAt hplace)).2
      (two_pow_dvd_unitsAt (Nat.le_trans hplace hr))
  exact Rank.exists_toRat_eq (by decide) hdvd

theorem normalize_of_not_isFinite (h : ¬ degrees.IsFinite) : normalize degrees = .nan := by
  have hrem : degrees % 360 = .nan := by
    cases degrees with
    | nan => rfl
    | ranked s r =>
      rw [turn_eq]
      exact if_pos (.inl (not_not.1 h))
  rw [normalize, hrem]
  exact if_neg not_nan_lt

/-! ## One more turn -/

theorem turnedBack_mono (h : rest ≤ rest') (hle : rest' ≤ turnRank) :
    turnedBack rest' ≤ turnedBack rest := by
  have hvalue := Rank.toRat_le_toRat_iff.2 h
  have hturn := Rank.toRat_le_toRat_iff.2 hle
  rw [toRat_turnRank] at hturn
  apply nearestRank_mono
  rw [abs_of_nonneg (by linarith), abs_of_nonneg (by linarith)]
  linarith

theorem toRat_turnedBack_pos (h : rest < turnRank) : 0 < (turnedBack rest).toRat := by
  have hlast : rest ≤ nearestRank (360 - 1 / 2 ^ 44) := by
    have hnext : turnRank.val = (nearestRank (360 - 1 / 2 ^ 44)).val + 1 := by decide +kernel
    have := Fin.lt_def.1 h
    exact Fin.le_def.2 (by omega)
  have hback := Rank.toRat_le_toRat_iff.2 (turnedBack_mono hlast (by decide +kernel))
  have hpos : 0 < (turnedBack (nearestRank (360 - 1 / 2 ^ 44))).toRat := by decide +kernel
  exact hpos.trans_le hback

/-- What lies between two ranks that are turned to one number is turned to it too. -/
theorem turnedBack_of_between (hlower : low ≤ rest) (hupper : rest ≤ high) (hend : high ≤ turnRank)
    (hlow : turnedBack low = t) (hhigh : turnedBack high = t) : turnedBack rest = t := by
  apply le_antisymm
  · rw [← hlow]
    exact turnedBack_mono hlower (hupper.trans hend)
  · rw [← hhigh]
    exact turnedBack_mono hupper hend

/-- What is turned to one number lies between two ranks, if beyond them another number comes out. -/
theorem turnedBack_eq_iff (hbelow : low.val = below.val + 1) (habove : above.val = high.val + 1)
    (hend : above ≤ turnRank) (hlow : turnedBack low = t) (hhigh : turnedBack high = t)
    (hout : turnedBack below ≠ t ∧ turnedBack above ≠ t) (hle : low ≤ high) (hrest : rest ≤ turnRank) :
    turnedBack rest = t ↔ low ≤ rest ∧ rest ≤ high := by
  have hhighEnd : high ≤ turnRank := le_trans (Fin.le_def.2 (by omega)) hend
  constructor
  · intro hback
    constructor
    · by_contra hlt
      have hval := Fin.lt_def.1 (not_le.1 hlt)
      exact hout.1 (turnedBack_of_between (Fin.le_def.2 (by omega)) (Fin.le_def.2 (by omega))
        (hle.trans hhighEnd) hback hlow)
    · by_contra hlt
      have hval := Fin.lt_def.1 (not_le.1 hlt)
      exact hout.2 (turnedBack_of_between (Fin.le_def.2 (by omega)) (Fin.le_def.2 (by omega))
        hrest hhigh hback)
  · rintro ⟨hlower, hupper⟩
    exact turnedBack_of_between hlower hupper hhighEnd hlow hhigh

/-- The angles that are turned to a given one, if they reach as far as `w` around its complement `c`
and no number farther: `e` is the spacing there. -/
theorem toRat_turnedBack_eq_iff (c w e : Rat)
    (hexact : (nearestRank (360 - c)).toRat = 360 - c ∧
      (nearestRank (c - w)).toRat = c - w ∧ (nearestRank (c + w)).toRat = c + w)
    (hnext : (nearestRank (c - w)).val = (nearestRank (c - w - e)).val + 1 ∧
      (nearestRank (c + w + e)).val = (nearestRank (c + w)).val + 1 ∧
      nearestRank (c + w + e) ≤ turnRank)
    (hin : turnedBack (nearestRank (c - w)) = nearestRank (360 - c) ∧
      turnedBack (nearestRank (c + w)) = nearestRank (360 - c))
    (hout : turnedBack (nearestRank (c - w - e)) ≠ nearestRank (360 - c) ∧
      turnedBack (nearestRank (c + w + e)) ≠ nearestRank (360 - c))
    (hw : 0 ≤ w) (hrest : rest ≤ turnRank) :
    (turnedBack rest).toRat = 360 - c ↔ |rest.toRat - c| ≤ w := by
  obtain ⟨hc, hlow, hhigh⟩ := hexact
  have hle : nearestRank (c - w) ≤ nearestRank (c + w) := by
    rw [← Rank.toRat_le_toRat_iff, hlow, hhigh]
    linarith
  calc (turnedBack rest).toRat = 360 - c
      ↔ turnedBack rest = nearestRank (360 - c) := by
        rw [← hc]
        constructor
        · intro h
          rw [← h, nearestRank_toRat]
        · intro h
          rw [h, nearestRank_toRat]
    _ ↔ nearestRank (c - w) ≤ rest ∧ rest ≤ nearestRank (c + w) :=
        turnedBack_eq_iff hnext.1 hnext.2.1 hnext.2.2 hin.1 hin.2 hout hle hrest
    _ ↔ |rest.toRat - c| ≤ w := by
        rw [← Rank.toRat_le_toRat_iff, ← Rank.toRat_le_toRat_iff, hlow, hhigh, abs_le]
        constructor <;> rintro ⟨hlower, hupper⟩ <;> constructor <;> linarith

end LegacyGradient.Angle
