/-
  LegacyGradient.Proofs.Binary64.Monotone

  Operations that keep the order. The order of numbers is that of their exact values, apart from
  infinity, and rounding keeps it, whatever sign an exact zero gets. So an operation keeps the order
  if it rounds a function of the exact value that does, and leaves the infinities where they are
  (`le_of_rounded`). Such are adding a finite number, multiplying with a positive one or dividing by
  it, and the floor.
-/
import LegacyGradient.Proofs.Binary64.Bounds

namespace LegacyGradient.Binary64

variable {x y c : Binary64} {s s' : Bool} {r r' : Rank} {q q' : Rat}

/-! ## Exact values -/

theorem toRat_le_toRat (h : ranked s r ≤ ranked s' r') :
    (ranked s r).toRat ≤ (ranked s' r').toRat := by
  have hnonneg := r.toRat_nonneg
  have hnonneg' := r'.toRat_nonneg
  rw [ranked_le_ranked] at h
  cases s with
  | false =>
    cases s' with
    | false =>
      have hval : r.val ≤ r'.val := by simpa [signedRank] using h
      rw [toRat_false, toRat_false]
      exact Rank.toRat_le_toRat_iff.2 hval
    | true =>
      -- both are zero
      have hval : r.val = 0 ∧ r'.val = 0 := by
        simp only [signedRank, Bool.false_eq_true, if_false, if_true] at h
        omega
      obtain rfl : r = .zero := Fin.ext hval.1
      obtain rfl : r' = .zero := Fin.ext hval.2
      rw [toRat_zero, toRat_zero]
  | true =>
    cases s' with
    | false =>
      rw [toRat_true, toRat_false]
      linarith
    | true =>
      have hval : r'.val ≤ r.val := by simpa [signedRank] using h
      rw [toRat_true, toRat_true]
      exact neg_le_neg (Rank.toRat_le_toRat_iff.2 hval)

/-- The place of a rounded number in the order does not depend on the sign of zero. -/
theorem exists_ofRatOrZero_signedRank (s : Bool) (q : Rat) :
    ∃ s' r, ofRatOrZero s q = ranked s' r ∧ signedRank s' r = signedRank (q < 0) (nearestRank q) := by
  by_cases hzero : q = 0
  · refine ⟨s, .zero, by rw [hzero, ofRatOrZero_zero], ?_⟩
    rw [hzero, nearestRank_zero]
    cases s <;> rfl
  · exact ⟨_, _, ofRatOrZero_of_ne hzero, rfl⟩

/-- Rounding keeps the order. -/
theorem ofRatOrZero_le_ofRatOrZero (h : q ≤ q') : ofRatOrZero s q ≤ ofRatOrZero s' q' := by
  obtain ⟨t, r, hr, hplace⟩ := exists_ofRatOrZero_signedRank s q
  obtain ⟨t', r', hr', hplace'⟩ := exists_ofRatOrZero_signedRank s' q'
  rw [hr, hr', ranked_le_ranked, hplace, hplace', signedRank, signedRank]
  by_cases hneg' : q' < 0
  · have hneg : q < 0 := h.trans_lt hneg'
    have habs : |q'| ≤ |q| := by
      rw [abs_of_neg hneg', abs_of_neg hneg]
      exact neg_le_neg h
    have hval : (nearestRank q').val ≤ (nearestRank q).val := nearestRank_mono habs
    simp only [hneg, hneg', decide_true, if_true]
    omega
  · by_cases hneg : q < 0
    · simp only [hneg, hneg', decide_true, decide_false, if_true, Bool.false_eq_true, if_false]
      omega
    · have habs : |q| ≤ |q'| := by
        rwa [abs_of_nonneg (not_lt.1 hneg), abs_of_nonneg (not_lt.1 hneg')]
      have hval : (nearestRank q).val ≤ (nearestRank q').val := nearestRank_mono habs
      simp only [hneg, hneg', decide_false, Bool.false_eq_true, if_false]
      omega

/-! ## Infinities -/

theorem negative_top_le (h : x ≠ nan) : ranked true .top ≤ x :=
  le_of_not_lt h ranked_ne_nan (Lowest.not_lt (.inr rfl))

theorem le_top (h : x ≠ nan) : x ≤ ranked false .top := by
  obtain ⟨s, r, rfl⟩ := exists_ranked h
  have hr := r.isLt
  rw [ranked_le_ranked]
  cases s <;> simp only [signedRank, Rank.top, if_true, Bool.false_eq_true, if_false] <;> omega

theorem eq_top_of_le (h : ranked false .top ≤ x) : x = ranked false .top := by
  have hinfinite := not_isFinite_of_top_le h
  obtain ⟨s, r, rfl⟩ := exists_ranked (ne_nan_of_le h).2
  obtain rfl : r = .top := not_not.1 hinfinite
  cases s with
  | false => rfl
  | true => exact absurd h (by decide)

theorem eq_negative_top_of_le (h : x ≤ ranked true .top) : x = ranked true .top := by
  obtain ⟨s, r, rfl⟩ := exists_ranked (ne_nan_of_le h).1
  by_cases hr : r = .top
  · subst hr
    cases s with
    | false => exact absurd h (by decide)
    | true => rfl
  · exact absurd (negative_top_lt (x := ranked s r) hr) (not_lt_of_le h)

/-! ## Operations -/

/-- An operation that rounds a function of the exact value and leaves the infinities where they are
keeps the order if the function does. -/
theorem le_of_rounded {f : Binary64 → Binary64} {g : Rat → Rat} (hg : Monotone g)
    (hfinite : ∀ s r, r ≠ .top → ∃ s', f (ranked s r) = ofRatOrZero s' (g (ranked s r).toRat))
    (htop : ∀ s, f (ranked s .top) = ranked s .top) (h : x ≤ y) : f x ≤ f y := by
  have hnumber : ∀ {x}, x ≠ nan → f x ≠ nan := by
    intro x hx
    obtain ⟨s, r, rfl⟩ := exists_ranked hx
    by_cases hr : r = .top
    · rw [hr, htop]
      exact ranked_ne_nan
    · obtain ⟨s', hs'⟩ := hfinite s r hr
      rw [hs']
      exact ofRatOrZero_ne_nan
  obtain ⟨hx, hy⟩ := ne_nan_of_le h
  by_cases hlow : x = ranked true .top
  · rw [hlow, htop]
    exact negative_top_le (hnumber hy)
  · by_cases hhigh : y = ranked false .top
    · rw [hhigh, htop]
      exact le_top (hnumber hx)
    · -- what lies between two numbers that are not at the ends is finite
      obtain ⟨s, r, rfl⟩ := exists_ranked hx
      obtain ⟨s', r', rfl⟩ := exists_ranked hy
      have hr : r ≠ .top := by
        rintro rfl
        cases s with
        | false => exact hhigh (eq_top_of_le h)
        | true => exact hlow rfl
      have hr' : r' ≠ .top := by
        rintro rfl
        cases s' with
        | false => exact hhigh rfl
        | true => exact hlow (eq_negative_top_of_le h)
      obtain ⟨t, ht⟩ := hfinite s r hr
      obtain ⟨t', ht'⟩ := hfinite s' r' hr'
      rw [ht, ht']
      exact ofRatOrZero_le_ofRatOrZero (hg (toRat_le_toRat h))

theorem add_le_add_right (hc : c.IsFinite) (h : x ≤ y) : x + c ≤ y + c := by
  cases c with
  | nan => exact absurd hc id
  | ranked s' r' =>
    refine le_of_rounded (f := (· + ranked s' r')) (g := (· + (ranked s' r').toRat)) ?_ ?_ ?_ h
    · exact fun q q' hq => (add_le_add_iff_right _).2 hq
    · exact fun s r hr => ⟨_, add_eq hr hc⟩
    · exact fun s => top_add hc

theorem mul_le_mul_right (hc : c.IsFactor) (h : x ≤ y) : x * c ≤ y * c := by
  obtain ⟨r', rfl, hzero, htop⟩ := id hc
  refine le_of_rounded (f := (· * ranked false r')) (g := (· * r'.toRat)) ?_ ?_ ?_ h
  · exact fun q q' hq => mul_le_mul_of_nonneg_right hq r'.toRat_nonneg
  · exact fun s r hr => ⟨_, by rw [mul_eq hr htop, toRat_false]⟩
  · exact fun s => top_mul hc

theorem div_le_div_right (hc : c.IsFactor) (h : x ≤ y) : x / c ≤ y / c := by
  obtain ⟨r', rfl, hzero, htop⟩ := id hc
  refine le_of_rounded (f := (· / ranked false r')) (g := (· / r'.toRat)) ?_ ?_ ?_ h
  · exact fun q q' hq => div_le_div_of_nonneg_right hq r'.toRat_nonneg
  · exact fun s r hr => ⟨_, by rw [div_eq hr hzero htop, toRat_false]⟩
  · exact fun s => top_div hc

theorem floor_le_floor (h : x ≤ y) : x.floor ≤ y.floor := by
  refine le_of_rounded (f := floor) (g := fun q => (q.floor : Rat)) ?_ ?_ ?_ h
  · intro q q' hq
    exact Int.cast_le.2 (Rat.le_floor_iff.2 ((Rat.floor_le q).trans hq))
  · exact fun s r hr => ⟨s, if_neg hr⟩
  · exact fun s => floor_top

end LegacyGradient.Binary64
