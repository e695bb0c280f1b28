/-
  LegacyGradient.Proofs.Placement.Finite

  How far the offsets of placed stops lie from the line. Anchors at finite percentages lie within the
  hundredth part of the largest finite number, and what is placed between two anchors is not rounded
  beyond that, however far these are apart (`within_provisional`). So nothing overflows in the pass
  unless an anchor is infinite from the beginning (`settledFrom_within`).
-/
import LegacyGradient.Proofs.Binary64.Bounds
import LegacyGradient.Proofs.Placement.Order

namespace LegacyGradient.Placement

open Binary64 (Rank Within nearestRank ofRatOrZero unitsPerOne)

variable {start next previous x : Binary64} {xs : List Binary64} {d : Rat} {j n waiting : Nat}
  {own : List (Option Binary64)}

/-! ## The farthest offsets -/

/-- The rank of the largest finite number. -/
def largest : Rank := ⟨Binary64.topRank - 1, by decide⟩

/-- The rank of the farthest offset that a percentage can give. -/
def farthest : Rank := nearestRank (largest.toRat / 100)

/-- What has to be computed of these two ranks. They are finite; the hundredfold of an offset does not
overflow, nor does it when a half is added; and there is room for a whole offset, for a distance
between two offsets, and for one more beyond the farthest of them. -/
theorem farthest_spec :
    (largest ≠ .top ∧ farthest ≠ .top ∧ nearestRank (1 / 2) ≠ .top) ∧
    (nearestRank (farthest.toRat * 100) ≤ largest ∧
      nearestRank (largest.toRat + (nearestRank (1 / 2)).toRat) ≤ largest ∧
      largest.toRat = largest.toRat.num) ∧
    nearestRank 1 ≤ farthest ∧ 2 * farthest.toRat + 1 ≤ largest.toRat ∧
      nearestRank (farthest.toRat + 1) = farthest := by
  decide +kernel

theorem largest_ne_top : largest ≠ .top := farthest_spec.1.1

theorem farthest_ne_top : farthest ≠ .top := farthest_spec.1.2.1

theorem nearestRank_one_le_farthest : nearestRank 1 ≤ farthest := farthest_spec.2.2.1

theorem two_mul_farthest_le : 2 * farthest.toRat + 1 ≤ largest.toRat := farthest_spec.2.2.2.1

theorem nearestRank_farthest_add : nearestRank (farthest.toRat + 1) = farthest :=
  farthest_spec.2.2.2.2

theorem le_largest {r : Rank} (h : r ≠ .top) : r ≤ largest :=
  Nat.le_sub_one_of_lt (Rank.lt_of_ne_top h)

/-- Rounding to hundredths does not lead beyond the farthest offset, nor does the hundredfold
overflow on the way. -/
theorem within_roundToHundredth (hx : Within farthest x) : Within farthest (roundToHundredth x) := by
  obtain ⟨r, hr, hzero, htop, hval⟩ := Binary64.ofNat_eq (n := 100) (by decide) (by decide)
  have hhundred : Within r 100 := ⟨false, r, hr, Nat.le_refl _⟩
  obtain ⟨⟨-, -, hhalf_ne⟩, ⟨hmul_le, hadd_le, hwhole⟩, -⟩ := farthest_spec
  have hhalf : Within (nearestRank (1 / 2)) .half := by
    rw [Binary64.half, Binary64.ofRat]
    exact ⟨_, _, rfl, Nat.le_refl _⟩
  have hmul : Within largest (x * 100) := by
    refine (hx.mul hhundred farthest_ne_top htop).mono ?_
    rw [hval, Nat.cast_ofNat]
    exact hmul_le
  have hadd : Within largest (x * 100 + .half) :=
    (hmul.add hhalf largest_ne_top hhalf_ne).mono hadd_le
  have hfloor : Within largest (x * 100 + .half).floor := hadd.floor largest_ne_top hwhole
  have hdiv : Within _ ((x * 100 + .half).floor / .ranked false r) :=
    hfloor.div largest_ne_top hzero htop
  rw [hval, ← hr, Nat.cast_ofNat] at hdiv
  exact hdiv

/-! ## Steps -/

/-- The part of the distance that is left before the last step is more than all roundings add. -/
theorem le_of_three_roundings {d D S P j n e : Rat} (hd : 0 ≤ d) (hj : 0 ≤ j) (hjn : j + 1 ≤ n)
    (hn : n ≤ 2 ^ 50) (he : 0 ≤ e) (he_le : e ≤ 1 / 2 ^ 60) (hD : D ≤ d + d / 2 ^ 53 + e)
    (hS : S ≤ D / n + D / n / 2 ^ 53 + e) (hP : P ≤ S * j + S * j / 2 ^ 53 + e) : P ≤ d + 1 := by
  have hn_pos : 0 < n := by linarith
  have hpart_nonneg : 0 ≤ j / n := div_nonneg hj hn_pos.le
  have hpart : j / n ≤ 1 - 1 / 2 ^ 50 := by
    have hone : 1 / 2 ^ 50 ≤ 1 / n := one_div_le_one_div_of_le hn_pos hn
    have hall : j / n + 1 / n ≤ 1 := by
      rw [← add_div, div_le_one hn_pos]
      exact hjn
    linarith
  -- from the last rounding back to the first; only then the part `j / n` is bounded
  have hSj : S * j ≤ D * (j / n) + D * (j / n) / 2 ^ 53 + e * j := by
    calc S * j ≤ (D / n + D / n / 2 ^ 53 + e) * j := mul_le_mul_of_nonneg_right hS hj
      _ = D * (j / n) + D * (j / n) / 2 ^ 53 + e * j := by ring
  have hDp : D * (j / n) ≤ d * (j / n) + d * (j / n) / 2 ^ 53 + e * (j / n) := by
    calc D * (j / n) ≤ (d + d / 2 ^ 53 + e) * (j / n) := mul_le_mul_of_nonneg_right hD hpart_nonneg
      _ = d * (j / n) + d * (j / n) / 2 ^ 53 + e * (j / n) := by ring
  have hdp : d * (j / n) ≤ d * (1 - 1 / 2 ^ 50) := mul_le_mul_of_nonneg_left hpart hd
  have hep : e * (j / n) ≤ e * (1 - 1 / 2 ^ 50) := mul_le_mul_of_nonneg_left hpart he
  have hej : e * j ≤ 1 / 2 ^ 60 * 2 ^ 50 :=
    mul_le_mul he_le (by linarith) hj (by norm_num)
  generalize D * (j / n) = Dp at hSj hDp
  generalize d * (j / n) = dp at hDp hdp
  linarith

/-- After `j` of `n` steps over a distance, all roundings counted, one is not much farther than the
distance. -/
theorem toRat_steps_le (hd : 0 ≤ d) (hj : j < n) (hn : n ≤ 2 ^ 50) :
    (nearestRank ((nearestRank ((nearestRank d).toRat / n)).toRat * j)).toRat ≤ d + 1 := by
  have hround : ∀ q : Rat, 0 ≤ q → (nearestRank q).toRat ≤ q + q / 2 ^ 53 + 1 / (2 * unitsPerOne) := by
    intro q hq
    have := Binary64.toRat_nearestRank_le q
    rwa [abs_of_nonneg hq] at this
  have hhalf : 0 ≤ 1 / (2 * unitsPerOne : Rat) :=
    one_div_nonneg.2 (mul_nonneg zero_le_two Binary64.unitsPerOne_pos.le)
  have hhalf_le : 1 / (2 * unitsPerOne : Rat) ≤ 1 / 2 ^ 60 := by
    have hpow : (2 ^ 60 : Rat) ≤ unitsPerOne := Binary64.two_pow_le_unitsPerOne (by decide)
    apply one_div_le_one_div_of_le (by norm_num)
    linarith [Binary64.unitsPerOne_pos]
  have hn_nonneg : (0 : Rat) ≤ n := Nat.cast_nonneg n
  have hj_nonneg : (0 : Rat) ≤ j := Nat.cast_nonneg j
  have hjn : (j : Rat) + 1 ≤ n := by exact_mod_cast hj
  have hn_le : (n : Rat) ≤ 2 ^ 50 := by exact_mod_cast hn
  exact le_of_three_roundings hd hj_nonneg hjn hn_le hhalf hhalf_le (hround d hd)
    (hround _ (div_nonneg (nearestRank d).toRat_nonneg hn_nonneg))
    (hround _ (mul_nonneg (Rank.toRat_nonneg _) hj_nonneg))

/-! ## Provisional offsets -/

/-- The number is no farther than the farthest offset, or it is the negative infinity, which does no
harm where it is raised. -/
def BoundedAbove (x : Binary64) : Prop := Within farthest x ∨ x = .ranked true .top

theorem abs_toRat_le {s : Bool} {r b : Rank} (h : r ≤ b) : |(Binary64.ranked s r).toRat| ≤ b.toRat := by
  rw [Binary64.abs_toRat]
  exact Rank.toRat_le_toRat_iff.2 h

theorem nearestRank_sub_ne_top (s s' : Bool) {r r' : Rank} (hr : r ≤ farthest) (hr' : r' ≤ farthest) :
    nearestRank ((Binary64.ranked s' r').toRat - (Binary64.ranked s r).toRat) ≠ .top := by
  refine Binary64.ne_top_of_le (Binary64.nearestRank_le ?_) largest_ne_top
  calc |(Binary64.ranked s' r').toRat - (Binary64.ranked s r).toRat|
      ≤ |(Binary64.ranked s' r').toRat| + |(Binary64.ranked s r).toRat| := abs_sub ..
    _ ≤ farthest.toRat + farthest.toRat := add_le_add (abs_toRat_le hr') (abs_toRat_le hr)
    _ ≤ largest.toRat := by linarith only [two_mul_farthest_le]

section StepTo

variable {s s' : Bool} {r r' : Rank} (hn : 0 < n) (hn_lt : n < 2 ^ 53)
include hn hn_lt

theorem stepTo_of_pos (hr : r ≤ farthest) (hr' : r' ≤ farthest)
    (hpos : 0 < (Binary64.ranked s' r').toRat - (Binary64.ranked s r).toRat) :
    stepTo (.ranked s r) (.ranked s' r') n = .ranked false (nearestRank
      ((nearestRank ((Binary64.ranked s' r').toRat - (Binary64.ranked s r).toRat)).toRat / n)) := by
  obtain ⟨rn, hrn, hzero, htop, hval⟩ := Binary64.ofNat_eq hn hn_lt
  have hdifference := nearestRank_sub_ne_top s s' hr hr'
  have hquotient : 0 ≤ (nearestRank ((Binary64.ranked s' r').toRat -
      (Binary64.ranked s r).toRat)).toRat / n := div_nonneg (Rank.toRat_nonneg _) n.cast_nonneg
  rw [stepTo, Binary64.sub_eq (Binary64.ne_top_of_le hr farthest_ne_top)
    (Binary64.ne_top_of_le hr' farthest_ne_top), Binary64.ofRatOrZero_of_pos hpos, hrn,
    Binary64.div_eq hdifference hzero htop, bne_self_eq_false, Binary64.toRat_false,
    Binary64.toRat_false, hval, Binary64.ofRatOrZero_of_nonneg hquotient,
    Binary64.atLeastZero_ranked_false]

theorem stepTo_of_not_pos (hr : r ≤ farthest) (hr' : r' ≤ farthest)
    (hpos : ¬ 0 < (Binary64.ranked s' r').toRat - (Binary64.ranked s r).toRat) :
    stepTo (.ranked s r) (.ranked s' r') n = 0 := by
  obtain ⟨rn, hrn, hzero, htop, -⟩ := Binary64.ofNat_eq hn hn_lt
  have hdifference := nearestRank_sub_ne_top s s' hr hr'
  -- neither the difference nor its part is positive
  have hnonpos := Binary64.toRat_ofRatOrZero_nonpos (s := s' && !s) (not_lt.1 hpos)
  obtain ⟨z, hz⟩ := Binary64.exists_ofRatOrZero_eq (s' && !s)
    ((Binary64.ranked s' r').toRat - (Binary64.ranked s r).toRat)
  rw [hz] at hnonpos
  rw [stepTo, Binary64.sub_eq (Binary64.ne_top_of_le hr farthest_ne_top)
    (Binary64.ne_top_of_le hr' farthest_ne_top), hz, hrn, Binary64.div_eq hdifference hzero htop]
  apply Binary64.atLeastZero_ofRatOrZero
  exact div_nonpos_of_nonpos_of_nonneg hnonpos Binary64.toRat_nonneg

theorem stepTo_negative_top (hr : r ≤ farthest) :
    stepTo (.ranked s r) (.ranked true .top) n = 0 := by
  obtain ⟨rn, hrn, hzero, htop, -⟩ := Binary64.ofNat_eq hn hn_lt
  have hdifference : .ranked true .top - .ranked s r = Binary64.ranked true .top :=
    Binary64.top_add (y := .ranked (!s) r) (Binary64.ne_top_of_le hr farthest_ne_top)
  rw [stepTo, hdifference, hrn, Binary64.top_div ⟨rn, rfl, hzero, htop⟩,
    Binary64.atLeastZero_ranked_true]

/-- The step is the rounded part of a distance that does not lead beyond the farthest offset, and
that is none if the second anchor does not lie after the first. -/
theorem exists_stepTo_eq (hstart : Within farthest start) (hnext : BoundedAbove next) :
    ∃ d, 0 ≤ d ∧ start.toRat + d ≤ farthest.toRat ∧
      stepTo start next n = .ranked false (nearestRank ((nearestRank d).toRat / n)) := by
  obtain ⟨s, r, rfl, hr⟩ := hstart
  have hnone : stepTo (.ranked s r) next n = 0 →
      ∃ d, 0 ≤ d ∧ (Binary64.ranked s r).toRat + d ≤ farthest.toRat ∧
        stepTo (.ranked s r) next n = .ranked false (nearestRank ((nearestRank d).toRat / n)) := by
    intro hstep
    refine ⟨0, le_refl 0, ?_, ?_⟩
    · rw [add_zero]
      exact (abs_le.1 (abs_toRat_le hr)).2
    · rw [hstep, Binary64.nearestRank_zero, Rank.toRat_zero, zero_div, Binary64.nearestRank_zero,
        Binary64.zero_eq]
  rcases hnext with ⟨s', r', rfl, hr'⟩ | rfl
  · by_cases hpos : 0 < (Binary64.ranked s' r').toRat - (Binary64.ranked s r).toRat
    · refine ⟨_, hpos.le, ?_, stepTo_of_pos hn hn_lt hr hr' hpos⟩
      rw [add_sub_cancel]
      exact (abs_le.1 (abs_toRat_le hr')).2
    · exact hnone (stepTo_of_not_pos hn hn_lt hr hr' hpos)
  · exact hnone (stepTo_negative_top hn hn_lt hr)

end StepTo

/-- The steps to a stop between two anchors do not lead far beyond the second one. -/
theorem exists_steps_le (hstart : Within farthest start) (hnext : BoundedAbove next) (hpos : 0 < j)
    (hj : j < n) (hn : n ≤ 2 ^ 50) :
    ∃ P, stepTo start next n * .ofNat j = .ranked false P ∧ P ≤ largest ∧
      start.toRat + P.toRat ≤ farthest.toRat + 1 := by
  obtain ⟨d, hd, hle, hstep⟩ := exists_stepTo_eq (Nat.zero_lt_of_lt hj) (by omega) hstart hnext
  obtain ⟨rj, hrj, -, htop, hval⟩ := Binary64.ofNat_eq hpos (show j < 2 ^ 53 by omega)
  obtain ⟨s, r, rfl, hr⟩ := hstart
  obtain ⟨hlower, -⟩ := abs_le.1 (abs_toRat_le (s := s) hr)
  -- the exact distance and the step are far from overflowing, and then so is the product
  have hd_le : d + 1 ≤ largest.toRat := by linarith only [hle, hlower, two_mul_farthest_le]
  have hD : (nearestRank d).toRat ≤ largest.toRat := by
    refine Rank.toRat_le_toRat_iff.2 (Binary64.nearestRank_le ?_)
    rw [abs_of_nonneg hd]
    linarith only [hd_le]
  have hS : nearestRank ((nearestRank d).toRat / n) ≤ largest := by
    apply Binary64.nearestRank_le
    rw [abs_of_nonneg (div_nonneg (Rank.toRat_nonneg _) n.cast_nonneg)]
    refine (div_le_self (Rank.toRat_nonneg _) ?_).trans hD
    exact_mod_cast Nat.zero_lt_of_lt hj
  have hP := toRat_steps_le hd hj hn
  refine ⟨_, ?_, Rank.toRat_le_toRat_iff.1 (hP.trans hd_le), by linarith only [hP, hle]⟩
  rw [hstep, hrj, Binary64.mul_eq (Binary64.ne_top_of_le hS largest_ne_top) htop,
    Binary64.toRat_false, Binary64.toRat_false, hval, bne_self_eq_false,
    Binary64.ofRatOrZero_of_nonneg (mul_nonneg (Rank.toRat_nonneg _) j.cast_nonneg)]

/-- What is between two anchors is not rounded beyond the farthest offset. -/
theorem within_provisional (hstart : Within farthest start) (hnext : BoundedAbove next) (hpos : 0 < j)
    (hj : j < n) (hn : n ≤ 2 ^ 50) : Within farthest (provisional start next n j) := by
  apply within_roundToHundredth
  obtain ⟨P, hsteps, hP, hle⟩ := exists_steps_le hstart hnext hpos hj hn
  obtain ⟨s, r, rfl, hr⟩ := hstart
  obtain ⟨hlower, -⟩ := abs_le.1 (abs_toRat_le (s := s) hr)
  rw [hsteps, Binary64.add_eq (Binary64.ne_top_of_le hr farthest_ne_top)
    (Binary64.ne_top_of_le hP largest_ne_top), Binary64.toRat_false, ← nearestRank_farthest_add]
  apply Binary64.within_ofRatOrZero
  apply abs_le.2
  constructor
  · -- no step leads back
    linarith only [hlower, P.toRat_nonneg]
  · exact hle

/-! ## Runs -/

theorem raise_within (hprevious : Within farthest previous) (hx : BoundedAbove x) :
    Within farthest (raise previous x) := by
  rw [raise]
  split
  · exact hprevious
  · next hlt =>
    rcases hx with hx | rfl
    · exact hx
    · -- the negative infinity lies before all finite offsets
      exact absurd (Binary64.negative_top_lt (hprevious.isFinite farthest_ne_top)) hlt

theorem raised_within (hprevious : Within farthest previous) (hxs : ∀ x ∈ xs, BoundedAbove x) :
    ∀ x ∈ raised previous xs, Within farthest x := by
  induction xs generalizing previous with
  | nil => simp [raised]
  | cons x xs ih =>
    obtain ⟨hx, hxs⟩ := List.forall_mem_cons.1 hxs
    have hraise := raise_within hprevious hx
    rw [raised]
    exact List.forall_mem_cons.2 ⟨hraise, ih hraise hxs⟩

theorem run_within (hstart : Within farthest start) (hnext : BoundedAbove next)
    (hwaiting : waiting + 1 ≤ 2 ^ 50) : ∀ x ∈ run start next waiting, Within farthest x := by
  rw [run_eq_raised]
  apply raised_within hstart
  intro x hx
  rcases List.mem_append.1 hx with hx | hx
  · obtain ⟨j, hpos, hj, rfl⟩ := mem_provisionals.1 hx
    exact .inl (within_provisional hstart hnext hpos hj hwaiting)
  · rwa [List.mem_singleton.1 hx]

theorem settledFrom_within (hstart : Within farthest start)
    (hown : ∀ x, some x ∈ own → BoundedAbove x) (hlength : waiting + own.length ≤ 2 ^ 50) :
    ∀ x ∈ settledFrom start waiting own, Within farthest x := by
  induction own generalizing start waiting with
  | nil => simp [settledFrom]
  | cons o own ih =>
    rw [List.length_cons] at hlength
    have hown' : ∀ x, some x ∈ own → BoundedAbove x := fun x hx => hown x (List.mem_cons_of_mem _ hx)
    cases o with
    | none => exact ih hstart hown' (by omega)
    | some next =>
      -- the second anchor is raised with its run, so that the next run starts within the bound again
      have hrun := run_within hstart (hown next (List.mem_cons_self ..)) (show waiting + 1 ≤ _ by omega)
      have hanchor := hrun (anchorAfter start next waiting) (by simp [run])
      intro x hx
      rcases List.mem_append.1 hx with hx | hx
      · exact hrun x hx
      · exact ih hanchor hown' (by omega) x hx

end LegacyGradient.Placement
