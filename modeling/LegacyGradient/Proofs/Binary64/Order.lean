/-
  LegacyGradient.Proofs.Binary64.Order

  The order of floating point numbers. It is total on the numbers that are not NaN, apart from the
  two zeros, which are equal in it; NaN is below nothing and nothing is below NaN.
-/
import LegacyGradient.Binary64.Rounding

namespace LegacyGradient.Binary64

variable {x y z : Binary64} {s s' : Bool} {r r' : Rank}

/-! ## NaN -/

theorem ranked_ne_nan : ranked s r ≠ nan := Binary64.noConfusion

theorem exists_ranked (h : x ≠ nan) : ∃ s r, x = ranked s r := by
  cases x with
  | nan => contradiction
  | ranked s r => exact ⟨s, r, rfl⟩

@[simp] theorem not_lt_nan : ¬ x < nan := by
  cases x <;> exact id

@[simp] theorem not_nan_lt : ¬ nan < x := by
  cases x <;> exact id

@[simp] theorem not_le_nan : ¬ x ≤ nan := by
  cases x <;> exact id

@[simp] theorem not_nan_le : ¬ nan ≤ x := by
  cases x <;> exact id

theorem ne_nan_of_le (h : x ≤ y) : x ≠ nan ∧ y ≠ nan := by
  constructor
  · rintro rfl
    exact not_nan_le h
  · rintro rfl
    exact not_le_nan h

/-! ## The order of the ranks with their signs -/

theorem ranked_lt_ranked : ranked s r < ranked s' r' ↔ signedRank s r < signedRank s' r' := Iff.rfl

theorem ranked_le_ranked : ranked s r ≤ ranked s' r' ↔ signedRank s r ≤ signedRank s' r' := Iff.rfl

theorem not_lt_self : ¬ x < x := by
  cases x with
  | nan => exact not_lt_nan
  | ranked s r => exact Int.lt_irrefl _

theorem le_self (h : x ≠ nan) : x ≤ x := by
  obtain ⟨s, r, rfl⟩ := exists_ranked h
  exact Int.le_refl _

theorem le_of_lt (h : x < y) : x ≤ y := by
  cases x with
  | nan => exact absurd h not_nan_lt
  | ranked s r =>
    cases y with
    | nan => exact absurd h not_lt_nan
    | ranked s' r' => exact Int.le_of_lt h

theorem not_lt_of_le (h : x ≤ y) : ¬ y < x := by
  obtain ⟨hx, hy⟩ := ne_nan_of_le h
  obtain ⟨s, r, rfl⟩ := exists_ranked hx
  obtain ⟨s', r', rfl⟩ := exists_ranked hy
  exact Int.not_lt.2 h

theorem le_of_not_lt (hx : x ≠ nan) (hy : y ≠ nan) (h : ¬ x < y) : y ≤ x := by
  obtain ⟨s, r, rfl⟩ := exists_ranked hx
  obtain ⟨s', r', rfl⟩ := exists_ranked hy
  exact Int.not_lt.1 h

theorem le_trans (hxy : x ≤ y) (hyz : y ≤ z) : x ≤ z := by
  obtain ⟨hx, hy⟩ := ne_nan_of_le hxy
  obtain ⟨s, r, rfl⟩ := exists_ranked hx
  obtain ⟨s', r', rfl⟩ := exists_ranked hy
  obtain ⟨s'', r'', rfl⟩ := exists_ranked (ne_nan_of_le hyz).2
  exact Int.le_trans hxy hyz

theorem lt_of_lt_of_le (hxy : x < y) (hyz : y ≤ z) : x < z := by
  obtain ⟨hx, hy⟩ := ne_nan_of_le (le_of_lt hxy)
  obtain ⟨s, r, rfl⟩ := exists_ranked hx
  obtain ⟨s', r', rfl⟩ := exists_ranked hy
  obtain ⟨s'', r'', rfl⟩ := exists_ranked (ne_nan_of_le hyz).2
  exact Int.lt_of_lt_of_le hxy hyz

theorem lt_of_le_of_lt (hxy : x ≤ y) (hyz : y < z) : x < z := by
  obtain ⟨hx, hy⟩ := ne_nan_of_le hxy
  obtain ⟨s, r, rfl⟩ := exists_ranked hx
  obtain ⟨s', r', rfl⟩ := exists_ranked hy
  obtain ⟨s'', r'', rfl⟩ := exists_ranked (ne_nan_of_le (le_of_lt hyz)).2
  exact Int.lt_of_le_of_lt hxy hyz

/-- Numbers that are equal in the order are the same, or they are zeros. -/
theorem eq_or_isZero_of_le_of_le (hxy : x ≤ y) (hyx : y ≤ x) :
    x = y ∨ x.IsZero ∧ y.IsZero := by
  obtain ⟨hx, hy⟩ := ne_nan_of_le hxy
  obtain ⟨s, r, rfl⟩ := exists_ranked hx
  obtain ⟨s', r', rfl⟩ := exists_ranked hy
  rw [ranked_le_ranked] at hxy hyx
  have heq : signedRank s r = signedRank s' r' := Int.le_antisymm hxy hyx
  by_cases hs : s = s'
  · subst hs
    left
    have : r.val = r'.val := by cases s <;> simp [signedRank] at heq <;> omega
    rw [Fin.ext this]
  · right
    have hzero : r.val = 0 ∧ r'.val = 0 := by
      cases s <;> cases s' <;> first
        | exact absurd rfl hs
        | simp only [signedRank, if_true, if_false, Bool.false_eq_true] at heq; omega
    have hr : r = .zero := Fin.ext hzero.1
    have hr' : r' = .zero := Fin.ext hzero.2
    subst hr hr'
    cases s <;> cases s' <;> simp [IsZero]

/-! ## The lowest numbers -/

/-- Nothing lies below the number: it is NaN or the negative infinity. -/
def Lowest (x : Binary64) : Prop := x = nan ∨ x = ranked true .top

theorem Lowest.not_lt (h : x.Lowest) : ¬ y < x := by
  rcases h with rfl | rfl
  · exact not_lt_nan
  · cases y with
    | nan => exact not_nan_lt
    | ranked s r =>
      have := r.isLt
      rw [ranked_lt_ranked]
      cases s with
      | true =>
        simp only [signedRank, Rank.top, if_true]
        omega
      | false =>
        simp only [signedRank, Rank.top, if_true, Bool.false_eq_true, if_false]
        omega

end LegacyGradient.Binary64
