/-
  LegacyGradient.Proofs.Binary64.Bounds

  How far from zero the results of operations lie. An operation rounds its exact result, and rounding
  keeps the order, so that bounds of the arguments bound the result too (`Within`).
-/
import LegacyGradient.Proofs.Binary64.Rounding

namespace LegacyGradient.Binary64

variable {x y : Binary64} {s s' : Bool} {b b' r r' : Rank} {q c : Rat} {n : Nat}

/-! ## Exact values -/

theorem toRat_false (r : Rank) : (ranked false r).toRat = r.toRat := by
  rw [toRat, if_neg Bool.false_ne_true]

theorem toRat_true (r : Rank) : (ranked true r).toRat = -r.toRat := by
  rw [toRat, if_pos rfl]

theorem abs_toRat (s : Bool) (r : Rank) : |(ranked s r).toRat| = r.toRat := by
  cases s with
  | false => rw [toRat_false, abs_of_nonneg r.toRat_nonneg]
  | true => rw [toRat_true, abs_neg, abs_of_nonneg r.toRat_nonneg]

theorem Rank.toRat_zero : Rank.toRat .zero = 0 := by
  rw [← toRat_false, Binary64.toRat_zero]

theorem nearestRank_zero : nearestRank 0 = .zero := by
  rw [← Rank.toRat_zero, nearestRank_toRat]

theorem exists_ofRatOrZero_eq (s : Bool) (q : Rat) : ∃ s', ofRatOrZero s q = ranked s' (nearestRank q) := by
  by_cases hzero : q = 0
  · exact ⟨s, by rw [hzero, ofRatOrZero_zero, nearestRank_zero]⟩
  · exact ⟨q < 0, ofRatOrZero_of_ne hzero⟩

theorem ofRatOrZero_of_pos (hq : 0 < q) : ofRatOrZero s q = ranked false (nearestRank q) := by
  rw [ofRatOrZero_of_ne hq.ne', ofRat, decide_eq_false (Rat.not_lt.2 hq.le)]

theorem ofRatOrZero_of_nonneg (hq : 0 ≤ q) : ofRatOrZero false q = ranked false (nearestRank q) := by
  rcases hq.eq_or_lt with rfl | hpos
  · rw [ofRatOrZero_zero, nearestRank_zero]
  · exact ofRatOrZero_of_pos hpos

/-- Whole numbers of fifty-three bits are numbers. -/
theorem exists_toRat_eq_natCast (h : n < 2 ^ 53) : ∃ r : Rank, r ≠ .top ∧ r.toRat = n := by
  obtain ⟨k, hunits⟩ := exists_unitsAt_eq h 1074
  have hk : unitsAt k = n * unitsPerOne := by rw [hunits, unitsPerOne, Nat.one_shiftLeft]
  have hplace : k < topRank := by
    by_contra hle
    have hlast : 2 ^ 53 * unitsPerOne ≤ n * unitsPerOne := by
      calc 2 ^ 53 * unitsPerOne ≤ unitsAt topRank := by decide +kernel
        _ ≤ unitsAt k := unitsAt_le_iff.2 (Nat.not_lt.1 hle)
        _ = n * unitsPerOne := hk
    exact Nat.not_le.2 h (Nat.le_of_mul_le_mul_right hlast (by decide +kernel))
  refine ⟨⟨k, Nat.lt_succ_of_lt hplace⟩, fun htop => ?_, ?_⟩
  · exact hplace.ne (congrArg Fin.val htop)
  · rw [Rank.toRat_eq, hk, Nat.cast_mul, mul_div_assoc, div_self unitsPerOne_pos.ne', mul_one]

theorem ofNat_eq (hpos : 0 < n) (h : n < 2 ^ 53) :
    ∃ r, ofNat n = ranked false r ∧ r ≠ .zero ∧ r ≠ .top ∧ r.toRat = n := by
  obtain ⟨r, htop, hr⟩ := exists_toRat_eq_natCast h
  have hzero : r ≠ .zero := by
    rintro rfl
    rw [Rank.toRat_zero, eq_comm, Nat.cast_eq_zero] at hr
    omega
  refine ⟨r, ?_, hzero, htop, hr⟩
  rw [ofNat, ← hr, ofRat, decide_eq_false (Rat.not_lt.2 r.toRat_nonneg), nearestRank_toRat]

theorem toRat_not (s : Bool) (r : Rank) : (ranked (!s) r).toRat = -(ranked s r).toRat := by
  cases s with
  | false => rw [Bool.not_false, toRat_true, toRat_false]
  | true => rw [Bool.not_true, toRat_true, toRat_false, neg_neg]

theorem toRat_ofRatOrZero_nonpos (hq : q ≤ 0) : (ofRatOrZero s q).toRat ≤ 0 := by
  by_cases hzero : q = 0
  · rw [hzero, ofRatOrZero_zero, toRat_zero]
  · rw [ofRatOrZero_of_ne hzero, ofRat, decide_eq_true (lt_of_le_of_ne hq hzero), toRat_true]
    exact neg_nonpos.2 (Rank.toRat_nonneg _)

theorem add_eq (hr : r ≠ .top) (hr' : r' ≠ .top) :
    ranked s r + ranked s' r' =
      ofRatOrZero (s && s') ((ranked s r).toRat + (ranked s' r').toRat) := by
  show Binary64.add _ _ = _
  rw [Binary64.add, if_neg hr, if_neg hr']

theorem sub_eq (hr : r ≠ .top) (hr' : r' ≠ .top) :
    ranked s' r' - ranked s r =
      ofRatOrZero (s' && !s) ((ranked s' r').toRat - (ranked s r).toRat) := by
  rw [sub_ranked, Binary64.add, if_neg hr', if_neg hr, toRat_not, sub_eq_add_neg]

theorem mul_eq (hr : r ≠ .top) (hr' : r' ≠ .top) :
    ranked s r * ranked s' r' =
      ofRatOrZero (s != s') ((ranked s r).toRat * (ranked s' r').toRat) := by
  show Binary64.mul _ _ = _
  rw [Binary64.mul, if_neg (not_or.2 ⟨hr, hr'⟩)]

theorem div_eq (hr : r ≠ .top) (hzero : r' ≠ .zero) (htop : r' ≠ .top) :
    ranked s r / ranked s' r' = ofRatOrZero (s != s') ((ranked s r).toRat / (ranked s' r').toRat) := by
  show Binary64.div _ _ = _
  rw [Binary64.div, if_neg hr, if_neg htop, if_neg hzero]

/-! ## Infinities -/

theorem Rank.lt_of_ne_top (h : r ≠ .top) : r.val < topRank :=
  Nat.lt_of_le_of_ne (Nat.le_of_lt_succ r.isLt) fun hval => h (Fin.ext hval)

theorem negative_top_lt (h : x.IsFinite) : ranked true .top < x := by
  cases x with
  | nan => exact absurd h id
  | ranked s r =>
    have hr := Rank.lt_of_ne_top h
    rw [ranked_lt_ranked]
    cases s <;> simp only [signedRank, Rank.top, if_true, Bool.false_eq_true, if_false] <;> omega

theorem not_isFinite_of_top_le (h : ranked false .top ≤ x) : ¬ x.IsFinite := by
  cases x with
  | nan => exact id
  | ranked s r =>
    intro hfinite
    have hr := Rank.lt_of_ne_top hfinite
    rw [ranked_le_ranked] at h
    cases s <;> simp only [signedRank, Rank.top, if_true, Bool.false_eq_true, if_false] at h <;> omega

/-! ## What is at least zero -/

theorem atLeastZero_ranked_false (r : Rank) : (ranked false r).atLeastZero = ranked false r := by
  rw [atLeastZero]
  split
  · rfl
  · next h =>
    have hr : r = .zero := by
      rw [zero_eq, ranked_lt_ranked] at h
      simp only [signedRank, Bool.false_eq_true, if_false, Rank.zero] at h
      apply Fin.ext
      show r.val = 0
      omega
    rw [zero_eq, hr]

theorem atLeastZero_ranked_true (r : Rank) : (ranked true r).atLeastZero = 0 := by
  rw [atLeastZero, if_neg]
  rw [zero_eq, ranked_lt_ranked]
  simp only [signedRank, Bool.false_eq_true, if_false, if_true, Rank.zero]
  omega

theorem atLeastZero_ofRatOrZero (hq : q ≤ 0) : (ofRatOrZero s q).atLeastZero = 0 := by
  by_cases hzero : q = 0
  · rw [hzero, ofRatOrZero_zero, atLeastZero_zero]
  · rw [ofRatOrZero_of_ne hzero, ofRat, decide_eq_true (lt_of_le_of_ne hq hzero),
      atLeastZero_ranked_true]

/-! ## Bounds -/

/-- The number lies no farther from zero than the number at a rank. -/
def Within (b : Rank) (x : Binary64) : Prop := ∃ s r, x = ranked s r ∧ r ≤ b

theorem ne_top_of_le (h : r ≤ b) (hb : b ≠ .top) : r ≠ .top := by
  rintro rfl
  exact hb (Fin.ext (Nat.le_antisymm (Nat.le_of_lt_succ b.isLt) h))

theorem Within.isFinite (h : Within b x) (hb : b ≠ .top) : x.IsFinite := by
  obtain ⟨s, r, rfl, hr⟩ := h
  exact ne_top_of_le hr hb

theorem Within.mono (h : Within b x) (hle : b ≤ b') : Within b' x := by
  obtain ⟨s, r, rfl, hr⟩ := h
  exact ⟨s, r, rfl, Nat.le_trans hr hle⟩

theorem within_ofRatOrZero (h : |q| ≤ c) : Within (nearestRank c) (ofRatOrZero s q) := by
  have hc : |q| ≤ |c| := h.trans (le_abs_self c)
  obtain ⟨s', hs'⟩ := exists_ofRatOrZero_eq s q
  exact ⟨s', nearestRank q, hs', nearestRank_mono hc⟩

theorem Within.add (hx : Within b x) (hy : Within b' y) (hb : b ≠ .top) (hb' : b' ≠ .top) :
    Within (nearestRank (b.toRat + b'.toRat)) (x + y) := by
  obtain ⟨s, r, rfl, hr⟩ := hx
  obtain ⟨s', r', rfl, hr'⟩ := hy
  rw [add_eq (ne_top_of_le hr hb) (ne_top_of_le hr' hb')]
  apply within_ofRatOrZero
  calc |(ranked s r).toRat + (ranked s' r').toRat|
      ≤ |(ranked s r).toRat| + |(ranked s' r').toRat| := abs_add_le ..
    _ = r.toRat + r'.toRat := by rw [abs_toRat, abs_toRat]
    _ ≤ b.toRat + b'.toRat :=
      add_le_add (Rank.toRat_le_toRat_iff.2 hr) (Rank.toRat_le_toRat_iff.2 hr')

theorem Within.mul (hx : Within b x) (hy : Within b' y) (hb : b ≠ .top) (hb' : b' ≠ .top) :
    Within (nearestRank (b.toRat * b'.toRat)) (x * y) := by
  obtain ⟨s, r, rfl, hr⟩ := hx
  obtain ⟨s', r', rfl, hr'⟩ := hy
  rw [mul_eq (ne_top_of_le hr hb) (ne_top_of_le hr' hb')]
  apply within_ofRatOrZero
  rw [abs_mul, abs_toRat, abs_toRat]
  exact mul_le_mul (Rank.toRat_le_toRat_iff.2 hr) (Rank.toRat_le_toRat_iff.2 hr') r'.toRat_nonneg
    b.toRat_nonneg

/-- The quotient by a number that is neither zero nor infinite. -/
theorem Within.div (hx : Within b x) (hb : b ≠ .top) (hzero : r' ≠ .zero) (htop : r' ≠ .top) :
    Within (nearestRank (b.toRat / r'.toRat)) (x / ranked s' r') := by
  obtain ⟨s, r, rfl, hr⟩ := hx
  rw [div_eq (ne_top_of_le hr hb) hzero htop]
  apply within_ofRatOrZero
  rw [abs_div, abs_toRat, abs_toRat]
  exact div_le_div_of_nonneg_right (Rank.toRat_le_toRat_iff.2 hr) r'.toRat_nonneg

/-- The floor does not lead beyond a whole number. -/
theorem Within.floor {k : Int} (hx : Within b x) (hb : b ≠ .top) (hk : b.toRat = k) :
    Within b x.floor := by
  obtain ⟨s, r, rfl, hr⟩ := hx
  have habs : |(ranked s r).toRat| ≤ k := by
    rw [abs_toRat, ← hk]
    exact Rank.toRat_le_toRat_iff.2 hr
  obtain ⟨hlower, hupper⟩ := abs_le.1 habs
  have hfloor : |(((ranked s r).toRat.floor : Int) : Rat)| ≤ b.toRat := by
    rw [hk, abs_le]
    constructor
    · have : -k ≤ (ranked s r).toRat.floor := Rat.le_floor_iff.2 (by push_cast; exact hlower)
      exact_mod_cast this
    · exact (Rat.floor_le _).trans hupper
  rw [Binary64.floor, if_neg (ne_top_of_le hr hb)]
  have := within_ofRatOrZero (s := s) hfloor
  rwa [nearestRank_toRat] at this

/-- Adding zero keeps what is finite so, and nothing else. -/
theorem isFinite_add_zero : (x + 0).IsFinite ↔ x.IsFinite := by
  cases x with
  | nan => rfl
  | ranked s r =>
    by_cases hr : r = .top
    · subst hr
      rw [zero_eq]
      show (Binary64.add _ _).IsFinite ↔ _
      rw [Binary64.add, if_pos rfl, if_neg fun h => top_ne_zero h.1.symm]
    · have hx : Within r (ranked s r) := ⟨s, r, rfl, Nat.le_refl _⟩
      have hzero : Within .zero 0 := ⟨false, .zero, zero_eq, Nat.le_refl _⟩
      have hsum := hx.add hzero hr top_ne_zero.symm
      rw [Rank.toRat_zero, add_zero, nearestRank_toRat] at hsum
      exact iff_of_true (hsum.isFinite hr) hr

end LegacyGradient.Binary64
