/-
  LegacyGradient.Proofs.Decimal.Shortest

  The shortest decimal of a positive number. Seventeen digits are enough: on the grid with that many
  digits one of the two neighbours of the exact value is so close to it that it reads back. So the
  search ends at a grid, its decimal reads back (`readsBack_shortest`), and its digits are not more
  than those of 10^17 (`significand_shortest_le`).
-/
import LegacyGradient.Decimal.Shortest
import LegacyGradient.Proofs.Binary64.Nearest
import LegacyGradient.Proofs.Decimal.Digits

namespace LegacyGradient

open Binary64 (Rank nearestRank)

variable {n : Nat} {q : Rat} {r : Rank} {place : Int} {tie : Tie} {d below above : Decimal}

/-! ## The leading place -/

theorem ten_zpow_pos (k : Int) : (0 : Rat) < 10 ^ k := zpow_pos (by norm_num) k

theorem zpow_length_le (hn : 0 < n) : (10 : Rat) ^ ((Text.ofNat n).length - 1 : Int) ≤ n := by
  have hlength := Text.length_ofNat_pos n
  have hplace : ((Text.ofNat n).length - 1 : Int) = ((Text.ofNat n).length - 1 : Nat) := by omega
  rw [hplace, zpow_natCast]
  exact_mod_cast Text.pow_length_ofNat_le hn

theorem lt_zpow_length (n : Nat) : (n : Rat) < 10 ^ ((Text.ofNat n).length : Int) := by
  rw [zpow_natCast]
  exact_mod_cast Text.lt_pow_length_ofNat n

namespace Decimal

/-- The leading place is the power of ten just below the number. -/
theorem leadingPlaceOf_spec (hq : 0 < q) :
    10 ^ leadingPlaceOf q ≤ q ∧ q < 10 ^ (leadingPlaceOf q + 1) := by
  have hden : (0 : Rat) < q.den := Nat.cast_pos.2 q.den_pos
  have hnum : 0 < q.num.natAbs := Int.natAbs_pos.2 (Rat.num_ne_zero.2 hq.ne')
  have hvalue : q = q.num.natAbs / q.den := by
    rw [← Binary64.abs_eq_natAbs_div, abs_of_pos hq]
  have hlow : (10 : Rat) ^ ((Text.ofNat q.num.natAbs).length - (Text.ofNat q.den).length - 1 : Int)
      ≤ q := by
    rw [sub_right_comm, zpow_sub₀ (by norm_num)]
    conv_rhs => rw [hvalue]
    exact div_le_div₀ (Nat.cast_nonneg _) (zpow_length_le hnum) hden (lt_zpow_length _).le
  have hhigh : q <
      10 ^ ((Text.ofNat q.num.natAbs).length - (Text.ofNat q.den).length + 1 : Int) := by
    rw [sub_add, zpow_sub₀ (by norm_num)]
    conv_lhs => rw [hvalue]
    exact div_lt_div₀ (lt_zpow_length _) (zpow_length_le q.den_pos) (ten_zpow_pos _).le
      (ten_zpow_pos _)
  rw [leadingPlaceOf]
  split
  -- of the two candidates that are left a comparison with the number decides
  · next hlt => exact ⟨hlow, by rwa [sub_add_cancel]⟩
  · next hge => exact ⟨not_lt.1 hge, hhigh⟩

/-! ## One grid -/

theorem toNat_floor_bounds (hq : 0 ≤ q) : (q.floor.toNat : Rat) ≤ q ∧ q < q.floor.toNat + 1 := by
  have hfloor : 0 ≤ q.floor := Rat.le_floor_iff.2 hq
  have hcast : (q.floor.toNat : Rat) = q.floor := by
    exact_mod_cast congrArg (Int.cast (R := Rat)) (Int.toNat_of_nonneg hfloor)
  rw [hcast]
  exact ⟨Rat.floor_le q, by simpa using Rat.lt_floor_add_one q⟩

theorem nearer_eq (tie : Tie) (q : Rat) (below above : Decimal) :
    nearer tie q below above = below ∨ nearer tie q below above = above := by
  rw [nearer]
  split
  · exact .inl rfl
  · split
    · exact .inr rfl
    · split
      · exact .inl rfl
      · exact .inr rfl

/-- What is found on a grid reads back, and it lies at most one step above the exact value. -/
theorem of_onGrid_eq_some (h : onGrid tie r place = some d) :
    d.ReadsBack r ∧ d.place = place ∧ d.significand ≤ (r.toRat / 10 ^ place).floor.toNat + 1 := by
  rw [onGrid] at h
  split at h
  · next hbelow =>
    split at h
    · next habove =>
      obtain rfl := Option.some.inj h
      rcases nearer_eq tie r.toRat ⟨(r.toRat / 10 ^ place).floor.toNat, place⟩
        ⟨(r.toRat / 10 ^ place).floor.toNat + 1, place⟩ with heq | heq
      · rw [heq]
        exact ⟨hbelow, rfl, Nat.le_succ _⟩
      · rw [heq]
        exact ⟨habove, rfl, Nat.le_refl _⟩
    · obtain rfl := Option.some.inj h
      exact ⟨hbelow, rfl, Nat.le_succ _⟩
  · split at h
    · next habove =>
      obtain rfl := Option.some.inj h
      exact ⟨habove, rfl, Nat.le_refl _⟩
    · contradiction

theorem readsBack_of_close (h : |d.toRat - r.toRat| * 2 ^ 54 < r.toRat) : d.ReadsBack r :=
  Binary64.nearestRank_of_close h

theorem isSome_onGrid_of_readsBack
    (h : ReadsBack r ⟨(r.toRat / 10 ^ place).floor.toNat, place⟩ ∨
      ReadsBack r ⟨(r.toRat / 10 ^ place).floor.toNat + 1, place⟩) :
    (onGrid tie r place).isSome := by
  rw [onGrid]
  split
  · split <;> rfl
  · next hbelow =>
    rw [if_pos (h.resolve_left hbelow)]
    rfl

/-- A grid with steps of less than the 2^53rd part of the number has a decimal that reads back. -/
theorem isSome_onGrid (tie : Tie) (h : 10 ^ place * 2 ^ 53 < r.toRat) :
    (onGrid tie r place).isSome := by
  have hstep := ten_zpow_pos place
  obtain ⟨hlow, hhigh⟩ := toNat_floor_bounds (div_nonneg r.toRat_nonneg hstep.le)
  rw [le_div_iff₀ hstep] at hlow
  rw [div_lt_iff₀ hstep] at hhigh
  apply isSome_onGrid_of_readsBack
  -- the value is no more than half a step away from the nearer one of its neighbours
  by_cases hnear : 2 * (r.toRat - (r.toRat / 10 ^ place).floor.toNat * 10 ^ place) ≤ 10 ^ place
  · left
    apply readsBack_of_close
    rw [toRat, abs_of_nonpos (by linarith)]
    linarith
  · right
    apply readsBack_of_close
    rw [toRat, Nat.cast_succ, abs_of_nonneg (by linarith)]
    linarith

/-! ## The search -/

/-- The grid of seventeen digits is fine enough for every positive number. -/
theorem isSome_onGrid_seventeen (tie : Tie) (hr : 0 < r.toRat) :
    (onGrid tie r (leadingPlaceOf r.toRat + 1 - (17 : Nat))).isSome := by
  apply isSome_onGrid
  have hplace : leadingPlaceOf r.toRat + 1 - (17 : Nat) = leadingPlaceOf r.toRat - (16 : Nat) := by
    omega
  rw [hplace, zpow_sub₀ (by norm_num), zpow_natCast]
  refine lt_of_lt_of_le ?_ (leadingPlaceOf_spec hr).1
  have := ten_zpow_pos (leadingPlaceOf r.toRat)
  linarith

/-- The search ends at one of the grids. -/
theorem exists_onGrid_eq_shortest (tie : Tie) (hr : 0 < r.toRat) :
    ∃ i < 18, onGrid tie r (leadingPlaceOf r.toRat + 1 - (i : Nat)) = some (shortest tie r) := by
  have hfound : ((List.range 18).findSome? fun (i : Nat) =>
      onGrid tie r (leadingPlaceOf r.toRat + 1 - i)).isSome :=
    List.findSome?_isSome_iff.2 ⟨17, List.mem_range.2 (by decide), isSome_onGrid_seventeen tie hr⟩
  obtain ⟨d, hd⟩ := Option.isSome_iff_exists.1 hfound
  obtain ⟨i, hi, heq⟩ := List.exists_of_findSome?_eq_some hd
  refine ⟨i, List.mem_range.1 hi, ?_⟩
  rw [heq, shortest, hd]
  rfl

theorem readsBack_shortest (tie : Tie) (hr : 0 < r.toRat) : (shortest tie r).ReadsBack r := by
  obtain ⟨i, -, h⟩ := exists_onGrid_eq_shortest tie hr
  exact (of_onGrid_eq_some h).1

theorem significand_shortest_pos (tie : Tie) (hr : 0 < r.toRat) :
    0 < (shortest tie r).significand := by
  refine Nat.pos_of_ne_zero fun hzero => hr.ne' ?_
  have hback := readsBack_shortest tie hr
  rw [ReadsBack, toRat, hzero, Nat.cast_zero, zero_mul, Binary64.nearestRank_zero] at hback
  rw [← hback, Binary64.Rank.toRat_zero]

theorem significand_shortest_le (tie : Tie) (hr : 0 < r.toRat) :
    (shortest tie r).significand ≤ 10 ^ 17 := by
  obtain ⟨i, hi, h⟩ := exists_onGrid_eq_shortest tie hr
  obtain ⟨-, -, hle⟩ := of_onGrid_eq_some h
  have hstep := ten_zpow_pos (leadingPlaceOf r.toRat + 1 - (i : Nat))
  obtain ⟨hfloor, -⟩ := toNat_floor_bounds (div_nonneg r.toRat_nonneg hstep.le)
  -- the `i`-th grid has 10^i points below the next power of ten
  have hquotient : r.toRat / 10 ^ (leadingPlaceOf r.toRat + 1 - (i : Nat)) < 10 ^ i := by
    rw [div_lt_iff₀ hstep, ← zpow_natCast, ← zpow_add₀ (by norm_num), add_sub_cancel]
    exact (leadingPlaceOf_spec hr).2
  have hsmall : (r.toRat / 10 ^ (leadingPlaceOf r.toRat + 1 - (i : Nat))).floor.toNat < 10 ^ i := by
    exact_mod_cast hfloor.trans_lt hquotient
  have hpow : 10 ^ i ≤ 10 ^ 17 := Nat.pow_le_pow_right (by decide) (Nat.le_of_lt_succ hi)
  exact hle.trans (hsmall.trans_le hpow)

end Decimal

end LegacyGradient
