/-
  LegacyGradient.Proofs.Binary64.Arithmetic

  Where the operations give a number, and where its sign is known. The second argument is finite
  throughout: the factors and divisors of the placement are whole numbers.
-/
import LegacyGradient.Binary64.Arithmetic
import LegacyGradient.Proofs.Binary64.Order
import Mathlib.Algebra.Group.Nat.Defs

namespace LegacyGradient.Binary64

variable {x y : Binary64} {s s' : Bool} {r r' : Rank} {q : Rat} {n : Nat}

/-! ## Rounding -/

theorem zero_eq : (0 : Binary64) = ranked false .zero := by decide +kernel

theorem ofRat_ne_nan : ofRat q ≠ nan := ranked_ne_nan

theorem ofRatOrZero_ne_nan : ofRatOrZero s q ≠ nan := by
  rw [ofRatOrZero]
  split
  · exact ranked_ne_nan
  · exact ofRat_ne_nan

theorem ofRatOrZero_of_ne (h : q ≠ 0) : ofRatOrZero s q = ofRat q := if_neg h

theorem ofRatOrZero_zero : ofRatOrZero s 0 = ranked s .zero := if_pos rfl

theorem ofRatOrZero_nonneg (h : 0 ≤ q) : ∃ r, ofRatOrZero false q = ranked false r := by
  by_cases hq : q = 0
  · exact ⟨.zero, by rw [hq, ofRatOrZero_zero]⟩
  · refine ⟨nearestRank q, ?_⟩
    rw [ofRatOrZero_of_ne hq, ofRat, decide_eq_false (Rat.not_lt.2 h)]

theorem top_ne_zero : Rank.top ≠ .zero := by decide

theorem Rank.toRat_nonneg (r : Rank) : 0 ≤ r.toRat := by
  rw [Rank.toRat, ← Rat.divInt_ofNat]
  exact Rat.divInt_nonneg (Int.natCast_nonneg _) (Int.natCast_nonneg _)

theorem toRat_nonneg : 0 ≤ (ranked false r).toRat := by
  rw [toRat, if_neg Bool.false_ne_true]
  exact r.toRat_nonneg

theorem toRat_zero : (ranked s .zero).toRat = 0 := by
  have : Rank.toRat .zero = 0 := by
    rw [Rank.toRat, show Rank.units .zero = 0 from rfl]
    simp
  cases s <;> simp [toRat, this]

/-! ## Whole numbers -/

/-- A positive number that is finite. -/
def IsFactor (x : Binary64) : Prop := ∃ r, x = ranked false r ∧ r ≠ .zero ∧ r ≠ .top

theorem divHalfEven_le (n d : Nat) : divHalfEven n d ≤ n / d + 1 := by
  simp only [divHalfEven]
  split
  · omega
  · split <;> omega

theorem log2_shiftLeft (h : n ≠ 0) (k : Nat) : (n <<< k).log2 = n.log2 + k := by
  rw [Nat.shiftLeft_eq]
  have hk : 0 < 2 ^ k := Nat.two_pow_pos k
  have hne : n * 2 ^ k ≠ 0 := Nat.mul_ne_zero h (Nat.ne_of_gt hk)
  refine (Nat.log2_eq_iff hne).2 ⟨?_, ?_⟩
  · rw [Nat.pow_add]
    exact Nat.mul_le_mul_right _ (Nat.log2_self_le h)
  · rw [Nat.add_right_comm, Nat.pow_add]
    exact Nat.mul_lt_mul_of_pos_right Nat.lt_log2_self hk

theorem shiftLeft_div_lt {k shift : Nat} (h : n.log2 + 1 + k = shift + 53) :
    (n <<< k) / (1 <<< shift) < 2 * binade := by
  rw [Nat.shiftLeft_eq, Nat.shiftLeft_eq, Nat.one_mul]
  refine Nat.div_lt_of_lt_mul ?_
  calc n * 2 ^ k < 2 ^ (n.log2 + 1) * 2 ^ k :=
        Nat.mul_lt_mul_of_pos_right Nat.lt_log2_self (Nat.two_pow_pos k)
    _ = 2 ^ shift * (2 * binade) := by
        rw [show 2 * binade = 2 ^ 53 from rfl, ← Nat.pow_add, ← Nat.pow_add, h]

theorem nearestRank_natCast (h : n ≠ 0) :
    (nearestRank n).val = min ((n.log2 + 1022) * binade +
      divHalfEven (n <<< 1074) (1 <<< (n.log2 + 1022))) topRank := by
  have hshift : ((n <<< 1074) / 1).log2 - 52 = n.log2 + 1022 := by
    rw [Nat.div_one, log2_shiftLeft h]
    omega
  simp only [nearestRank, Rat.num_natCast, Rat.den_natCast, Int.natAbs_natCast, hshift]

/-- The numbers that count something in memory are finite. -/
theorem ofNat_isFactor (h₀ : 0 < n) (h : n < 2 ^ 64) : (ofNat n).IsFactor := by
  have hne : n ≠ 0 := Nat.ne_of_gt h₀
  have hlog : n.log2 < 64 := (Nat.log2_lt hne).2 h
  -- from the binade of 1 on, and far below the last one
  have hrank := nearestRank_natCast hne
  have hplace := divHalfEven_le (n <<< 1074) (1 <<< (n.log2 + 1022))
  have hplace' := shiftLeft_div_lt (show n.log2 + 1 + 1074 = n.log2 + 1022 + 53 by omega)
  have hbinades : (n.log2 + 1022) * binade ≤ 1085 * binade := Nat.mul_le_mul_right _ (by omega)
  have hbinades' : 1022 * binade ≤ (n.log2 + 1022) * binade := Nat.mul_le_mul_right _ (by omega)
  refine ⟨nearestRank n, ?_, fun hzero => ?_, fun htop => ?_⟩
  · rw [ofNat, ofRat, decide_eq_false (Rat.not_lt.2 Rat.natCast_nonneg)]
  · rw [hzero] at hrank
    simp only [Rank.zero, topRank, binade] at *
    omega
  · rw [htop] at hrank
    simp only [Rank.top, topRank, binade] at *
    omega

theorem half_isFactor : half.IsFactor := ⟨nearestRank (1 / 2), by decide +kernel⟩

theorem IsFactor.isFinite (h : x.IsFactor) : x.IsFinite := by
  obtain ⟨r, rfl, -, htop⟩ := h
  exact htop

/-! ## Infinities -/

theorem top_add (hy : y.IsFinite) : ranked s .top + y = ranked s .top := by
  cases y with
  | nan => exact absurd hy id
  | ranked s' r' =>
    show add _ _ = _
    rw [add, if_pos rfl, if_neg fun h => hy h.1]

theorem top_mul (hy : y.IsFactor) : ranked s .top * y = ranked s .top := by
  obtain ⟨r', rfl, hzero, -⟩ := hy
  show mul _ _ = _
  rw [mul, if_pos (.inl rfl), if_neg (not_or.2 ⟨top_ne_zero, hzero⟩), Bool.bne_false]

theorem top_div (hy : y.IsFactor) : ranked s .top / y = ranked s .top := by
  obtain ⟨r', rfl, -, htop⟩ := hy
  show div _ _ = _
  rw [div, if_pos rfl, if_neg htop, Bool.bne_false]

theorem floor_top : (ranked s .top).floor = ranked s .top := by
  rw [floor, if_pos rfl]

/-! ## Sums, products and quotients -/

theorem add_ne_nan (hx : x ≠ nan) (hy : y.IsFinite) : x + y ≠ nan := by
  obtain ⟨s, r, rfl⟩ := exists_ranked hx
  cases y with
  | nan => exact absurd hy id
  | ranked s' r' =>
    change add _ _ ≠ nan
    have hr' : r' ≠ .top := hy
    simp only [add, hr', false_and, if_false]
    split
    · exact ranked_ne_nan
    · exact ofRatOrZero_ne_nan

theorem mul_ne_nan (hx : x ≠ nan) (hy : y.IsFactor) : x * y ≠ nan := by
  obtain ⟨s, r, rfl⟩ := exists_ranked hx
  obtain ⟨r', rfl, hzero, htop⟩ := hy
  change mul _ _ ≠ nan
  simp only [mul]
  split
  · next htop' =>
    have hr : r ≠ .zero := by
      rintro rfl
      exact top_ne_zero (htop'.resolve_right htop).symm
    rw [if_neg (not_or.2 ⟨hr, hzero⟩)]
    exact ranked_ne_nan
  · exact ofRatOrZero_ne_nan

theorem div_ne_nan (hx : x ≠ nan) (hy : y.IsFactor) : x / y ≠ nan := by
  obtain ⟨s, r, rfl⟩ := exists_ranked hx
  obtain ⟨r', rfl, hzero, htop⟩ := hy
  change div _ _ ≠ nan
  simp only [div, htop, hzero, if_false]
  split
  · exact ranked_ne_nan
  · exact ofRatOrZero_ne_nan

theorem floor_ne_nan (hx : x ≠ nan) : x.floor ≠ nan := by
  obtain ⟨s, r, rfl⟩ := exists_ranked hx
  simp only [floor]
  split
  · exact ranked_ne_nan
  · exact ofRatOrZero_ne_nan

/-- A product of two numbers with positive signs has that sign. -/
theorem mul_isFactor (hy : y.IsFactor) : ∃ r', ranked false r * y = ranked false r' := by
  obtain ⟨r', rfl, hzero, htop⟩ := hy
  change ∃ r'', mul _ _ = _
  by_cases hr : r = .top
  · subst hr
    refine ⟨.top, ?_⟩
    simp only [mul, true_or, if_true, hzero, top_ne_zero, or_self, if_false, bne_self_eq_false]
  · simp only [mul, hr, htop, or_self, if_false, bne_self_eq_false]
    exact ofRatOrZero_nonneg (Rat.mul_nonneg toRat_nonneg toRat_nonneg)

/-- What is at least zero has the positive sign. -/
theorem atLeastZero_eq (x : Binary64) : ∃ r, x.atLeastZero = ranked false r := by
  rw [atLeastZero]
  split
  · next h =>
    cases x with
    | nan => exact absurd h not_lt_nan
    | ranked s r =>
      cases s with
      | false => exact ⟨r, rfl⟩
      | true =>
        rw [zero_eq, ranked_lt_ranked] at h
        simp [signedRank, Rank.zero] at h
        omega
  · exact ⟨.zero, zero_eq⟩

/-! ## Going on from a number -/

/-- From the lowest numbers one does not get away. -/
theorem Lowest.add (h : x.Lowest) : (x + ranked false r).Lowest := by
  rcases h with rfl | rfl
  · exact .inl rfl
  · change (add _ _).Lowest
    simp only [add, if_true]
    split
    · exact .inl rfl
    · exact .inr rfl

theorem add_ne_nan_of_not_lowest (h : ¬ x.Lowest) : x + ranked false r ≠ nan := by
  obtain ⟨s, r', rfl⟩ := exists_ranked fun hnan => h (.inl hnan)
  change add _ _ ≠ nan
  simp only [add]
  split
  · next htop =>
    cases s with
    | true => exact absurd (.inr (by rw [htop])) h
    | false => simp
  · split
    · exact ranked_ne_nan
    · exact ofRatOrZero_ne_nan

/-! ## The sign of a zero -/

theorem sub_ranked : x - ranked s r = add x (ranked (!s) r) := rfl

/-- The sign of a zero that is taken away can be seen in a zero only. -/
theorem sub_zero_cases (x : Binary64) :
    (∃ y, ∀ s, x - ranked s .zero = y) ∨ ∀ s, ∃ s', x - ranked s .zero = ranked s' .zero := by
  cases x with
  | nan => exact .inl ⟨nan, fun s => rfl⟩
  | ranked s r =>
    by_cases hr : r = .top
    · refine .inl ⟨ranked s r, fun s' => ?_⟩
      rw [sub_ranked, add, if_pos hr, if_neg fun h => top_ne_zero h.1.symm]
    · have hsub : ∀ s', ranked s r - ranked s' .zero = ofRatOrZero (s && !s') (ranked s r).toRat := by
        intro s'
        rw [sub_ranked, add, if_neg hr, if_neg top_ne_zero.symm, toRat_zero, Rat.add_zero]
      by_cases hzero : (ranked s r).toRat = 0
      · refine .inr fun s' => ⟨s && !s', ?_⟩
        rw [hsub, hzero, ofRatOrZero_zero]
      · refine .inl ⟨ofRat (ranked s r).toRat, fun s' => ?_⟩
        rw [hsub, ofRatOrZero_of_ne hzero]

theorem zero_div (hy : y.IsFactor) : ∃ s', ranked s .zero / y = ranked s' .zero := by
  obtain ⟨r, rfl, hzero, htop⟩ := hy
  refine ⟨s != false, ?_⟩
  change div _ _ = _
  rw [div, if_neg top_ne_zero.symm, if_neg htop, if_neg hzero, toRat_zero, Rat.div_def,
    Rat.zero_mul, ofRatOrZero_zero]

theorem atLeastZero_zero : (ranked s .zero).atLeastZero = 0 := by
  cases s <;> decide +kernel

/-- The sign of a zero is lost when a number with the positive sign is added. -/
theorem zero_add (s s' : Bool) : ranked s .zero + ranked false r = ranked s' .zero + ranked false r := by
  change add _ _ = add _ _
  simp only [add, if_neg top_ne_zero.symm, Bool.and_false, toRat_zero]

end LegacyGradient.Binary64
