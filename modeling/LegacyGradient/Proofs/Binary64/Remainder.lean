/-
  LegacyGradient.Proofs.Binary64.Remainder

  The remainder is not rounded. A number is a multiple of its spacing, by fewer than 2^53, and the
  spacings are powers of two. So the remainder of one number by another is a multiple of the finer of
  the two spacings, again by fewer than 2^53, and is a number itself (`exists_rem_eq`).
-/
import LegacyGradient.Proofs.Binary64.Nearest

namespace LegacyGradient.Binary64

variable {r r' rest : Rank} {s s' : Bool} {j k m m' n shift shift' : Nat}

/-! ## Multiples of a power of two -/

/-- From the end of a binade on every value is a multiple of the spacing there. -/
theorem two_pow_dvd_unitsAt (h : (shift + 1) * binade ≤ k) : 2 ^ shift ∣ unitsAt k := by
  obtain ⟨shift', m, rfl, hm, hshift⟩ := exists_place_eq k
  rw [unitsAt_eq (Nat.le_of_lt hm) hshift]
  have hle : shift ≤ shift' := by
    by_contra hlt
    have hbinades : (shift' + 2) * binade ≤ (shift + 1) * binade :=
      Nat.mul_le_mul_right _ (by omega)
    rw [Nat.add_mul] at hbinades
    omega
  exact Dvd.dvd.mul_left (Nat.pow_dvd_pow 2 hle) m

/-- A multiple of a spacing, counted in units, is one of the spacing's value. -/
theorem Rank.exists_toRat_eq (hshift : shift ≤ 1074) (h : 2 ^ shift ∣ r.units) :
    ∃ j : Nat, r.toRat = j / 2 ^ (1074 - shift) := by
  obtain ⟨j, hj⟩ := h
  refine ⟨j, ?_⟩
  rw [Rank.toRat_eq, ← units_eq, hj, unitsPerOne_eq hshift]
  push_cast
  exact mul_div_mul_left _ _ (by positivity)

/-! ## The remainder of two values -/

theorem exists_units_eq_mod (r r' : Rank) (h : r' ≠ .zero) :
    ∃ rest : Rank, rest.units = r.units % r'.units := by
  obtain ⟨shift, m, hr, hm, hshift⟩ := exists_place_eq r.val
  obtain ⟨shift', m', hr', hm', hshift'⟩ := exists_place_eq r'.val
  have hunits : r.units = m * 2 ^ shift := by
    rw [units_eq, hr, unitsAt_eq (Nat.le_of_lt hm) hshift]
  have hunits' : r'.units = m' * 2 ^ shift' := by
    rw [units_eq, hr', unitsAt_eq (Nat.le_of_lt hm') hshift']
  -- a place that has these units is no later than that of the dividend
  have hrank : ∀ k, unitsAt k = r.units % r'.units → ∃ rest : Rank, rest.units = r.units % r'.units := by
    intro k hk
    have hle : k ≤ r.val := unitsAt_le_iff.1 (hk ▸ Nat.mod_le ..)
    exact ⟨⟨k, Nat.lt_of_le_of_lt hle r.isLt⟩, hk⟩
  rcases Nat.le_total shift shift' with hle | hle
  · -- the spacing of the dividend is the finer one
    obtain ⟨d, rfl⟩ := Nat.exists_eq_add_of_le hle
    have hmod : r.units % r'.units = m % (m' * 2 ^ d) * 2 ^ shift := by
      rw [hunits, hunits', Nat.pow_add, Nat.mul_comm (2 ^ shift), ← Nat.mul_assoc,
        Nat.mul_mod_mul_right]
    obtain ⟨k, hk⟩ := exists_unitsAt_eq (Nat.lt_of_le_of_lt (Nat.mod_le m (m' * 2 ^ d)) hm) shift
    exact hrank k (hk.trans hmod.symm)
  · obtain ⟨d, rfl⟩ := Nat.exists_eq_add_of_le hle
    have hpos : 0 < m' := by
      refine Nat.pos_of_ne_zero fun hzero => h (Fin.ext ?_)
      subst hzero
      obtain rfl := hshift'.resolve_right (by decide)
      rw [hr']
      decide
    have hmod : r.units % r'.units = m * 2 ^ d % m' * 2 ^ shift' := by
      rw [hunits, hunits', Nat.pow_add, Nat.mul_comm (2 ^ shift'), ← Nat.mul_assoc,
        Nat.mul_mod_mul_right]
    obtain ⟨k, hk⟩ := exists_unitsAt_eq (Nat.lt_trans (Nat.mod_lt (m * 2 ^ d) hpos) hm') shift'
    exact hrank k (hk.trans hmod.symm)

theorem Rank.units_le_units_iff : r.units ≤ r'.units ↔ r ≤ r' := unitsAt_le_iff

/-- The remainder is a number with the sign of the dividend. It is what whole divisors leave of the
dividend, and less than one more of them. -/
theorem exists_rem_eq (hr : r ≠ .top) (hzero : r' ≠ .zero) (htop : r' ≠ .top) :
    ∃ (turns : Nat) (rest : Rank), (∀ s s', ranked s r % ranked s' r' = ranked s rest) ∧
      rest.units = r.units % r'.units ∧ r.toRat = turns * r'.toRat + rest.toRat ∧ rest < r' := by
  obtain ⟨rest, hrest⟩ := exists_units_eq_mod r r' hzero
  refine ⟨r.units / r'.units, rest, fun s s' => ?_, hrest, ?_, ?_⟩
  · show rem _ _ = _
    have hvalue : mkRat ((r.units : Int) % r'.units) (1 <<< 1074) = rest.toRat := by
      rw [← Int.natCast_mod, ← hrest]
      rfl
    simp only [rem, if_neg (not_or.2 ⟨hr, hzero⟩), if_neg htop, hvalue]
    by_cases hnone : rest = .zero
    · rw [hnone]
      exact (congrArg (ofRatOrZero s) toRat_zero).trans ofRatOrZero_zero
    · exact ofRatOrZero_toRat s s hnone
  · have hsum : r.units = r.units / r'.units * r'.units + rest.units := by
      rw [hrest, Nat.div_add_mod']
    have hunit := unitsPerOne_pos
    rw [Rank.toRat_eq, Rank.toRat_eq, Rank.toRat_eq, ← units_eq, ← units_eq, ← units_eq,
      ← mul_div_assoc, ← add_div]
    congr 1
    exact_mod_cast hsum
  · have hpos : 0 < r'.units := by
      refine Nat.pos_of_ne_zero fun hunits => hzero ?_
      have hle : r' ≤ .zero := Rank.units_le_units_iff.1 (by rw [hunits]; exact Nat.zero_le _)
      exact Fin.ext (Nat.le_zero.1 hle)
    by_contra hle
    have hunits := Rank.units_le_units_iff.2 (not_lt.1 hle)
    have := Nat.mod_lt r.units hpos
    omega

end LegacyGradient.Binary64
