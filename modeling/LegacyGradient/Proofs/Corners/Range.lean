/-
  LegacyGradient.Proofs.Corners.Range

  Where an angle lies when its whole turns are taken away. It is never negative and never more than
  one turn, but it can be a whole turn: the numbers below 360 are 2^-44 apart, so that the sum of one
  turn and a negative angle of half of that or less is rounded to the turn. These angles are the only
  ones that are not brought below one turn (`normalizesIntoTurn_iff`).
-/
import LegacyGradient.Number
import LegacyGradient.Proofs.Corners.Turn

namespace LegacyGradient.Angle

open Binary64

variable {degrees : Binary64} {r rest : Rank} {turns : Nat}

/-! ## Rounded to a whole turn -/

/-- How far below a whole turn a sum is still rounded to it. -/
def reach : Rat := 1 / 2 ^ 45

theorem turnedBack_zero : turnedBack .zero = turnRank := by decide +kernel

theorem turnedBack_le_turn (h : rest ≤ turnRank) : turnedBack rest ≤ turnRank := by
  rw [← turnedBack_zero]
  exact turnedBack_mono (Fin.le_def.2 (Nat.zero_le _)) h

/-- One turn less what is left is rounded to the whole turn if what is left is within reach. -/
theorem turnedBack_eq_turn_iff (h : rest ≤ turnRank) :
    turnedBack rest = turnRank ↔ rest.toRat ≤ reach := by
  have hvalue : (nearestRank reach).toRat = reach := by decide +kernel
  have hlast : turnedBack (nearestRank reach) = turnRank := by decide +kernel
  have hend : nearestRank reach ≤ turnRank := by decide +kernel
  -- the numbers around the reach are 2^-97 apart
  have hnext : (nearestRank (reach + 1 / 2 ^ 97)).val = (nearestRank reach).val + 1 := by
    decide +kernel
  have hbeyond : turnedBack (nearestRank (reach + 1 / 2 ^ 97)) < turnRank := by decide +kernel
  rw [← hvalue, Rank.toRat_le_toRat_iff]
  constructor
  · intro hback
    by_contra hlt
    have hval := Fin.lt_def.1 (not_le.1 hlt)
    have hle : turnedBack rest ≤ turnedBack (nearestRank (reach + 1 / 2 ^ 97)) :=
      turnedBack_mono (Fin.le_def.2 (by omega)) h
    rw [hback] at hle
    exact absurd hbeyond (not_lt.2 hle)
  · intro hle
    exact turnedBack_of_between (Fin.le_def.2 (Nat.zero_le _)) hle hend turnedBack_zero hlast

/-! ## What is left of a negative angle -/

/-- The angle is negative and within reach of zero. -/
def JustBelowZero (x : Rat) : Prop := -reach ≤ x ∧ x < 0

theorem not_justBelowZero_of_nonneg {x : Rat} (h : 0 ≤ x) : ¬ JustBelowZero x :=
  fun hbelow => absurd hbelow.2 (not_lt.2 h)

/-- Whole turns back are not just below zero. -/
theorem not_justBelowZero_turns (turns : Nat) : ¬ JustBelowZero (-(360 * turns)) := by
  rintro ⟨hlow, hneg⟩
  have hturns : turns ≠ 0 := by
    rintro rfl
    rw [Nat.cast_zero, mul_zero, neg_zero] at hneg
    exact lt_irrefl 0 hneg
  have hone : (1 : Rat) ≤ turns := Nat.one_le_cast.2 (Nat.pos_of_ne_zero hturns)
  rw [reach] at hlow
  linarith

/-- What is left of a negative angle is within reach only if the angle itself is: beyond one turn the
numbers are too far apart. -/
theorem rest_le_reach_iff (hzero : rest ≠ .zero) (hsum : r.toRat = 360 * turns + rest.toRat)
    (hunits : rest.units = r.units % turnRank.units) :
    rest.toRat ≤ reach ↔ JustBelowZero (-r.toRat) := by
  have hpos := Rank.toRat_pos hzero
  have hnonneg : (0 : Rat) ≤ turns := turns.cast_nonneg
  constructor
  · intro hle
    by_cases hturns : turns = 0
    · have hvalue : r.toRat = rest.toRat := by rw [hsum, hturns, Nat.cast_zero, mul_zero, Rat.zero_add]
      rw [hvalue]
      exact ⟨neg_le_neg hle, neg_neg_of_pos hpos⟩
    · exfalso
      obtain ⟨j, hj⟩ := exists_toRat_eq_of_turn_le (turnRank_le hsum hturns) hunits
      rw [hj, reach] at hle
      rw [hj] at hpos
      have hlow : (0 : Rat) < j := by linarith
      have hhigh : (j : Rat) < 1 := by linarith
      have : 0 < j := Nat.cast_pos.1 hlow
      have : j < 1 := by exact_mod_cast hhigh
      omega
  · rintro ⟨hlow, -⟩
    linarith

/-! ## Where an angle lies -/

/-- A finite angle is brought to the negative zero, or to a number from zero to one turn, which is the
whole turn for the angles just below zero and no others. -/
theorem normalize_cases (h : degrees.IsFinite) :
    normalize degrees = ranked true .zero ∧ ¬ JustBelowZero degrees.toRat ∨
      ∃ r ≤ turnRank, normalize degrees = ranked false r ∧
        (r = turnRank ↔ JustBelowZero degrees.toRat) := by
  cases degrees with
  | nan => exact absurd h id
  | ranked s r =>
    obtain ⟨turns, rest, hsum, hlt, hunits, hforward, hback⟩ := exists_normalize_eq h
    cases s with
    | false =>
      rw [toRat_false]
      exact .inr ⟨rest, hlt.le, hforward,
        iff_of_false hlt.ne (not_justBelowZero_of_nonneg r.toRat_nonneg)⟩
    | true =>
      rw [toRat_true, hback]
      by_cases hzero : rest = .zero
      · -- whole turns back leave the negative zero
        rw [if_pos hzero, hsum, hzero, Rank.toRat_zero, Rat.add_zero]
        exact .inl ⟨rfl, not_justBelowZero_turns turns⟩
      · rw [if_neg hzero]
        refine .inr ⟨turnedBack rest, turnedBack_le_turn hlt.le, rfl, ?_⟩
        rw [turnedBack_eq_turn_iff hlt.le, rest_le_reach_iff hzero hsum hunits]

theorem nonneg_ranked_false (r : Rank) : 0 ≤ ranked false r := by
  rw [zero_eq, ranked_le_ranked]
  simp only [signedRank, Bool.false_eq_true, if_false, Rank.zero]
  omega

theorem ranked_false_lt_turn_iff : ranked false r < 360 ↔ r < turnRank := by
  rw [turn_eq, ranked_lt_ranked, Fin.lt_def]
  simp only [signedRank, Bool.false_eq_true, if_false]
  omega

/-- An angle is brought to at least zero and less than one turn. -/
def NormalizesIntoTurn (degrees : Binary64) : Prop :=
  degrees.IsFinite → 0 ≤ normalize degrees ∧ normalize degrees < 360

/-- Every finite angle is brought to at least zero and less than one turn, but for the negative ones
no farther than 2^-45 from zero. -/
theorem normalizesIntoTurn_iff :
    NormalizesIntoTurn degrees ↔
      ¬ (degrees.IsFinite ∧ -(1 / 2 ^ 45) ≤ degrees.toRat ∧ degrees.toRat < 0) := by
  by_cases hfinite : degrees.IsFinite
  · rw [NormalizesIntoTurn, forall_prop_of_true hfinite, and_iff_right hfinite]
    rcases normalize_cases hfinite with ⟨hzero, hnot⟩ | ⟨r, hle, hr, hturn⟩
    · rw [hzero]
      exact iff_of_true (by decide +kernel) hnot
    · rw [hr, ranked_false_lt_turn_iff, and_iff_right (nonneg_ranked_false r), lt_iff_le_and_ne,
        and_iff_right hle]
      exact not_congr hturn
  · exact iff_of_true (fun h => absurd h hfinite) fun h => hfinite h.1

/-- The angle of -2^-45 is raised to a whole turn. -/
theorem raised_to_turn :
    ¬ NormalizesIntoTurn (Number.value "-0.00000000000002842170943040401".toList) := by
  intro h
  have hrange := h (by decide +kernel)
  have hturn : normalize (Number.value "-0.00000000000002842170943040401".toList) = 360 := by
    decide +kernel
  rw [hturn] at hrange
  exact not_lt_self hrange.2

end LegacyGradient.Angle
