/-
  LegacyGradient.Proofs.Binary64.Nearest

  When a number is rounded to a given one. The spacing of the numbers around a positive one is at
  least the 2^53rd part of it, also below a power of two, where it is half of that above. So what is
  closer than the 2^54th part is rounded to that number (`nearestRank_of_close`), and a value that is
  a number's own is not rounded at all, as when zero is added.
-/
import LegacyGradient.Proofs.Binary64.Bounds

namespace LegacyGradient.Binary64

variable {n d k m shift : Nat} {q : Rat} {r : Rank} {x y : Binary64}

/-- A quotient less than a half away from an integer is rounded to it. -/
theorem divHalfEven_eq (hlow : 2 * (m * d) < 2 * n + d) (hhigh : 2 * n < 2 * (m * d) + d) :
    divHalfEven n d = m := by
  have hd : 0 < d := by omega
  have hn : n / d * d + n % d = n := Nat.div_add_mod' n d
  have hmod := Nat.mod_lt n hd
  by_cases hle : m * d ≤ n
  · have hdiv : n / d = m := by
      apply Nat.div_eq_of_lt_le hle
      rw [Nat.add_mul, Nat.one_mul]
      omega
    rw [hdiv] at hn
    simp only [divHalfEven, hdiv]
    rw [if_pos (by omega)]
  · have hm : m ≠ 0 := by
      rintro rfl
      omega
    obtain ⟨j, rfl⟩ : ∃ j, m = j + 1 := ⟨m - 1, by omega⟩
    have hsucc : (j + 1) * d = j * d + d := Nat.succ_mul j d
    have hdiv : n / d = j := Nat.div_eq_of_lt_le (by omega) (by omega)
    rw [hdiv] at hn
    simp only [divHalfEven, hdiv]
    rw [if_neg (by omega), if_pos (by omega)]

/-- A quotient lies in one binade only. -/
theorem nearestPlace_of_inBinade (hd : 0 < d) (h : InBinade n d shift m) :
    nearestPlace n d = shift * binade + m := by
  obtain ⟨shift', m', hplace, h'⟩ := exists_nearestPlace_eq hd n
  have hlt : ∀ {s s' m m'}, InBinade n d s m → InBinade n d s' m' → ¬ s < s' := by
    intro s s' m m' hs hs' hlt
    have hle := hs'.le.resolve_left (by omega)
    have hpow : 2 * 2 ^ s ≤ 2 ^ s' := by
      rw [← Nat.pow_succ']
      exact Nat.pow_le_pow_right (by decide) hlt
    have : n < n := by
      calc n < 2 * binade * (d * 2 ^ s) := hs.lt
        _ = binade * (d * (2 * 2 ^ s)) := by ring
        _ ≤ binade * (d * 2 ^ s') := Nat.mul_le_mul_left _ (Nat.mul_le_mul_left _ hpow)
        _ ≤ n := hle
    omega
  obtain rfl : shift' = shift := Nat.le_antisymm (Nat.not_lt.1 (hlt h h')) (Nat.not_lt.1 (hlt h' h))
  rw [hplace, h'.place, h.place]

/-- A quotient close to the value at a place is rounded to this place. -/
theorem nearestPlace_of_close (hd : 0 < d)
    (hlow : (2 ^ 54 - 1) * (unitsAt k * d) < 2 ^ 54 * n)
    (hhigh : 2 ^ 54 * n < (2 ^ 54 + 1) * (unitsAt k * d)) : nearestPlace n d = k := by
  obtain ⟨shift, m, rfl, hm, hshift⟩ := exists_place_eq k
  have hvalue : m * 2 ^ shift * d = m * (d * 2 ^ shift) := by ring
  rw [unitsAt_eq (Nat.le_of_lt hm) hshift, hvalue] at hlow hhigh
  rw [show binade = 2 ^ 52 from rfl] at hm hshift
  by_cases hle : shift = 0 ∨ binade * (d * 2 ^ shift) ≤ n
  · -- the quotient lies in the binade of the place
    have hbelow : m * (d * 2 ^ shift) + d * 2 ^ shift ≤ 2 ^ 53 * (d * 2 ^ shift) := by
      rw [← Nat.succ_mul]
      exact Nat.mul_le_mul_right _ hm
    have hplace : divHalfEven n (d * 2 ^ shift) = m := divHalfEven_eq (by omega) (by omega)
    refine nearestPlace_of_inBinade hd ⟨hplace.symm, ?_, hle⟩
    rw [show 2 * binade = 2 ^ 53 from rfl]
    omega
  · -- it lies below a power of two, where the spacing is half as wide
    obtain ⟨hne, hlt⟩ := not_or.1 hle
    obtain ⟨s, rfl⟩ := Nat.exists_eq_succ_of_ne_zero hne
    rw [show binade = 2 ^ 52 from rfl] at hlt
    have hfirst : m = 2 ^ 52 := by
      refine Nat.le_antisymm (Nat.not_lt.1 fun hgt => ?_) (hshift.resolve_left hne)
      have hnext := Nat.mul_le_mul_right (d * 2 ^ s.succ) (Nat.succ_le_of_lt hgt)
      rw [Nat.succ_mul] at hnext
      omega
    have hdouble : d * 2 ^ s.succ = 2 * (d * 2 ^ s) := by rw [Nat.pow_succ]; ring
    rw [hfirst, hdouble] at hlow hhigh
    rw [hdouble] at hlt
    have hplace : divHalfEven n (d * 2 ^ s) = 2 ^ 53 := divHalfEven_eq (by omega) (by omega)
    have hin : InBinade n d s (2 ^ 53) := by
      refine ⟨hplace.symm, ?_, .inr ?_⟩
      · rw [show 2 * binade = 2 ^ 53 from rfl]
        omega
      · rw [show binade = 2 ^ 52 from rfl]
        omega
    rw [nearestPlace_of_inBinade hd hin, hfirst, Nat.succ_mul, show binade = 2 ^ 52 from rfl]
    omega

theorem Rank.toRat_pos (h : r ≠ .zero) : 0 < r.toRat := by
  refine lt_of_le_of_ne r.toRat_nonneg fun heq => h ?_
  rw [← nearestRank_toRat r, ← heq, nearestRank_zero]

/-- What is closer to a number than its 2^54th part is rounded to it. -/
theorem nearestRank_of_close (h : |q - r.toRat| * 2 ^ 54 < r.toRat) : nearestRank q = r := by
  have hden : (0 : Rat) < q.den := Nat.cast_pos.2 q.den_pos
  have hunit := unitsPerOne_pos
  have hbounds := abs_lt.1 ((lt_div_iff₀ (by norm_num)).2 h)
  have hpos : 0 < r.toRat := (mul_nonneg (abs_nonneg _) (by norm_num)).trans_lt h
  have habs : |q| = q := abs_of_pos (by linarith)
  have hlow : (2 ^ 54 - 1) * r.toRat < 2 ^ 54 * |q| := by rw [habs]; linarith
  have hhigh : 2 ^ 54 * |q| < (2 ^ 54 + 1) * r.toRat := by rw [habs]; linarith
  rw [abs_eq_natAbs_div, Rank.toRat_eq, ← mul_div_assoc, ← mul_div_assoc] at hlow hhigh
  rw [div_lt_div_iff₀ hunit hden, mul_assoc, mul_assoc] at hlow
  rw [div_lt_div_iff₀ hden hunit, mul_assoc, mul_assoc] at hhigh
  have hplace : nearestPlace (q.num.natAbs * unitsPerOne) q.den = r.val := by
    apply nearestPlace_of_close q.den_pos
    · have hpow : ((2 ^ 54 - 1 : Nat) : Rat) = 2 ^ 54 - 1 := by norm_num
      rw [← hpow] at hlow
      exact_mod_cast hlow
    · exact_mod_cast hhigh
  apply Fin.ext
  rw [nearestRank_val, hplace]
  exact Nat.min_eq_left (Nat.le_of_lt_succ r.isLt)

/-! ## Numbers that are not rounded -/

theorem nearestRank_neg (q : Rat) : nearestRank (-q) = nearestRank q := by
  simp only [nearestRank, Rat.neg_num, Int.natAbs_neg, Rat.neg_den]

theorem ofRatOrZero_neg_of_nonneg (hq : 0 ≤ q) :
    ofRatOrZero true (-q) = ranked true (nearestRank q) := by
  rcases hq.eq_or_lt with rfl | hpos
  · rw [neg_zero, ofRatOrZero_zero, nearestRank_zero]
  · rw [ofRatOrZero_of_ne (neg_ne_zero.2 hpos.ne'), ofRat, nearestRank_neg,
      decide_eq_true (neg_neg_of_pos hpos)]

/-- The value of a number that is not zero is rounded to this number. -/
theorem ofRat_toRat (s : Bool) (h : r ≠ .zero) : ofRat (ranked s r).toRat = ranked s r := by
  have hpos := Rank.toRat_pos h
  cases s with
  | false => rw [toRat_false, ofRat, nearestRank_toRat, decide_eq_false hpos.not_gt]
  | true =>
    rw [toRat_true, ofRat, nearestRank_neg, nearestRank_toRat,
      decide_eq_true (neg_neg_of_pos hpos)]

theorem ofRatOrZero_toRat (s s' : Bool) (h : r ≠ .zero) :
    ofRatOrZero s' (ranked s r).toRat = ranked s r := by
  have hne : (ranked s r).toRat ≠ 0 := by
    rw [← abs_ne_zero, abs_toRat]
    exact (Rank.toRat_pos h).ne'
  rw [ofRatOrZero_of_ne hne, ofRat_toRat s h]

theorem isZero_iff (hx : x ≠ nan) : x.IsZero ↔ x.toRat = 0 := by
  obtain ⟨s, r, rfl⟩ := exists_ranked hx
  constructor
  · rintro (h | h) <;> rw [h, toRat_zero]
  · intro h
    have hr : r = .zero := by
      by_contra hne
      have hpos := Rank.toRat_pos hne
      rw [← abs_toRat s, h, abs_zero] at hpos
      exact lt_irrefl _ hpos
    subst hr
    cases s
    · exact .inl rfl
    · exact .inr rfl

/-- A whole number is known by its value. -/
theorem eq_ofNat_iff (hpos : 0 < n) (h : n < 2 ^ 53) : x = ofNat n ↔ x.toRat = n := by
  obtain ⟨r, hr, -, -, hvalue⟩ := ofNat_eq hpos h
  constructor
  · rintro rfl
    rw [hr, toRat_false, hvalue]
  · intro hx
    have hne : (n : Rat) ≠ 0 := Nat.cast_ne_zero.2 hpos.ne'
    obtain ⟨s', r', rfl⟩ := exists_ranked fun hnan : x = nan => hne (by rw [← hx, hnan]; rfl)
    have hzero : r' ≠ .zero := by
      rintro rfl
      rw [toRat_zero] at hx
      exact hne hx.symm
    rw [← ofRat_toRat s' hzero, hx]
    rfl

theorem IsZero.add_zero (h : x.IsZero) : x + 0 = 0 := by
  rcases h with rfl | rfl <;> decide +kernel

/-- To add zero changes no number but the negative zero. -/
theorem add_zero_of_not_isZero (hx : x ≠ nan) (h : ¬ x.IsZero) : x + 0 = x := by
  obtain ⟨s, r, rfl⟩ := exists_ranked hx
  have hfinite : (ranked false .zero).IsFinite := top_ne_zero.symm
  rw [zero_eq]
  by_cases htop : r = .top
  · rw [htop, top_add hfinite]
  · have hzero : r ≠ .zero := by
      rintro rfl
      exact h ((isZero_iff ranked_ne_nan).2 toRat_zero)
    rw [add_eq htop hfinite, toRat_zero, Rat.add_zero, ofRatOrZero_toRat s _ hzero]

/-- Of the numbers only the two zeros become the same when zero is added. -/
theorem eq_or_isZero_of_add_zero (hx : x ≠ nan) (hy : y ≠ nan) (h : x + 0 = y + 0) :
    x = y ∨ x.IsZero ∧ y.IsZero := by
  have hzero : (0 : Binary64).IsZero := .inl zero_eq
  by_cases hx' : x.IsZero
  · by_cases hy' : y.IsZero
    · exact .inr ⟨hx', hy'⟩
    · rw [hx'.add_zero, add_zero_of_not_isZero hy hy'] at h
      exact absurd (h ▸ hzero) hy'
  · by_cases hy' : y.IsZero
    · rw [hy'.add_zero, add_zero_of_not_isZero hx hx'] at h
      exact absurd (h ▸ hzero) hx'
    · rw [add_zero_of_not_isZero hx hx', add_zero_of_not_isZero hy hy'] at h
      exact .inl h

end LegacyGradient.Binary64
