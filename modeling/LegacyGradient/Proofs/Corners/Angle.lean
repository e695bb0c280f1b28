/-
  LegacyGradient.Proofs.Corners.Angle

  Which angles convert. The whole quarter turns do. When one more turn is added to a negative angle,
  the sum is rounded: between 256 and 360 the numbers are four times as far apart as they are around
  90, and the two numbers to either side of a quarter turn back are rounded to three quarters of a
  turn (`side?_eq_some_iff`). Beside these four, only whole quarter turns convert
  (`convertsOnlyAxes_iff`).
-/
import LegacyGradient.Number
import LegacyGradient.Proofs.Corners.Turn

namespace LegacyGradient

/-- The quarter turns of the angle that starts from an edge. -/
def Side.quarterTurns : Side → Nat
  | left => 0
  | bottom => 1
  | right => 2
  | top => 3

namespace Angle

open Binary64

variable {degrees : Binary64} {side : Side} {r rest : Rank} {turns : Int} {x : Rat}

/-! ## Quarter turns -/

/-- The angle with this value is a number of quarter turns, and points from the edge. -/
def PointsFrom (side : Side) (x : Rat) : Prop :=
  ∃ k : Int, x = 90 * k ∧ (side.quarterTurns : Int) = k % 4

theorem quarterTurns_lt (side : Side) : side.quarterTurns < 4 := by
  cases side <;> decide

/-- What is left of an angle after whole turns is as many quarter turns as point from the edge. -/
theorem pointsFrom_iff (hlow : 0 ≤ x) (hhigh : x < 360) :
    PointsFrom side (360 * turns + x) ↔ x = 90 * side.quarterTurns := by
  have hlt := quarterTurns_lt side
  constructor
  · rintro ⟨k, hk, hmod⟩
    have hx : x = 90 * ((k - 4 * turns : Int) : Rat) := by
      push_cast
      linarith
    have hlower : (0 : Rat) ≤ ((k - 4 * turns : Int) : Rat) := by linarith
    have hupper : ((k - 4 * turns : Int) : Rat) < 4 := by linarith
    have hrest : k - 4 * turns = side.quarterTurns := by
      have : 0 ≤ k - 4 * turns := by exact_mod_cast hlower
      have : k - 4 * turns < 4 := by exact_mod_cast hupper
      omega
    rw [hx, hrest]
    norm_cast
  · intro hx
    refine ⟨4 * turns + side.quarterTurns, ?_, by omega⟩
    rw [hx]
    push_cast
    ring

/-- An edge is told by the quarter turns that the angle comes to. -/
theorem side?_eq_some_iff_normalize :
    side? degrees = some side ↔
      normalize degrees ≠ .nan ∧ (normalize degrees).toRat = 90 * side.quarterTurns := by
  have hninety : normalize degrees = 90 ↔ (normalize degrees).toRat = 90 :=
    eq_ofNat_iff (by decide) (by decide)
  have hright : normalize degrees = 180 ↔ (normalize degrees).toRat = 180 :=
    eq_ofNat_iff (by decide) (by decide)
  have htop : normalize degrees = 270 ↔ (normalize degrees).toRat = 270 :=
    eq_ofNat_iff (by decide) (by decide)
  simp only [side?, hninety, hright, htop]
  generalize normalize degrees = turn
  by_cases hnan : turn = .nan
  · subst hnan
    have hzero : ¬ nan.IsZero := by decide
    simp [hzero, toRat]
  · simp only [isZero_iff hnan]
    generalize turn.toRat = x
    cases side <;> norm_num [Side.quarterTurns, hnan] <;> grind

/-! ## Rounded to a quarter turn -/

/-- How far around a quarter turn back the angles are rounded to three quarters of a turn. -/
def slack : Rat := 1 / 2 ^ 45

/-- What is left is turned to an edge if the rest of a turn points from there, and around a quarter
turn. -/
theorem toRat_turnedBack_eq_quarterTurns_iff (h : rest < turnRank) :
    (turnedBack rest).toRat = 90 * side.quarterTurns ↔
      360 - rest.toRat = 90 * side.quarterTurns ∨ side = .top ∧ |rest.toRat - 90| ≤ slack := by
  cases side with
  | left =>
    have hback := toRat_turnedBack_pos h
    have hrest := toRat_lt_turn h
    simp only [Side.quarterTurns, reduceCtorEq, false_and, or_false, Nat.cast_zero, mul_zero]
    constructor <;> intro <;> linarith
  | bottom =>
    have hback := toRat_turnedBack_eq_iff 270 0 (1 / 2 ^ 44) (by decide +kernel)
      (by decide +kernel) (by decide +kernel) (by decide +kernel) le_rfl h.le
    have hvalue : (90 : Rat) * Side.bottom.quarterTurns = 360 - 270 := by norm_num [Side.quarterTurns]
    rw [hvalue, hback, abs_nonpos_iff, sub_eq_zero, sub_right_inj]
    simp only [reduceCtorEq, false_and, or_false]
  | right =>
    have hback := toRat_turnedBack_eq_iff 180 0 (1 / 2 ^ 45) (by decide +kernel)
      (by decide +kernel) (by decide +kernel) (by decide +kernel) le_rfl h.le
    have hvalue : (90 : Rat) * Side.right.quarterTurns = 360 - 180 := by norm_num [Side.quarterTurns]
    rw [hvalue, hback, abs_nonpos_iff, sub_eq_zero, sub_right_inj]
    simp only [reduceCtorEq, false_and, or_false]
  | top =>
    have hslack : 0 ≤ slack := by decide +kernel
    have hback := toRat_turnedBack_eq_iff 90 slack (1 / 2 ^ 46) (by decide +kernel)
      (by decide +kernel) (by decide +kernel) (by decide +kernel) hslack h.le
    have hvalue : (90 : Rat) * Side.top.quarterTurns = 360 - 90 := by norm_num [Side.quarterTurns]
    rw [hvalue, hback, sub_right_inj]
    constructor
    · intro hnear
      exact .inr ⟨rfl, hnear⟩
    · rintro (hexact | ⟨-, hnear⟩)
      · rw [hexact, sub_self, abs_zero]
        exact hslack
      · exact hnear

/-! ## Which angles convert -/

/-- Beyond one turn the numbers are so far apart that of what is left only a quarter turn itself is
near one. -/
theorem toRat_eq_of_near (hr : turnRank ≤ r) (hunits : rest.units = r.units % turnRank.units)
    (hnear : |rest.toRat - 90| ≤ slack) : rest.toRat = 90 := by
  obtain ⟨j, hvalue⟩ := exists_toRat_eq_of_turn_le hr hunits
  rw [hvalue, slack, abs_le] at hnear
  have hlower : (90 * 2 ^ 44 : Rat) < j + 1 := by linarith
  have hupper : (j : Rat) < 90 * 2 ^ 44 + 1 := by linarith
  have hj : j = 90 * 2 ^ 44 := by
    have : 90 * 2 ^ 44 < j + 1 := by exact_mod_cast hlower
    have : j < 90 * 2 ^ 44 + 1 := by exact_mod_cast hupper
    omega
  rw [hvalue, hj]
  norm_num

/-- Whole turns lead away from a quarter turn back. -/
theorem near_quarterBack_iff {turns : Nat} (hsum : r.toRat = 360 * turns + rest.toRat) :
    |-r.toRat + 90| ≤ slack ↔ turns = 0 ∧ |rest.toRat - 90| ≤ slack := by
  have hnonneg := rest.toRat_nonneg
  cases turns with
  | zero =>
    rw [hsum, Nat.cast_zero, mul_zero, Rat.zero_add, ← abs_neg, neg_add, neg_neg, ← sub_eq_add_neg]
    exact (and_iff_right rfl).symm
  | succ n =>
    refine iff_of_false (fun hnear => ?_) fun h => absurd h.1 n.succ_ne_zero
    have hturns : (0 : Rat) ≤ n := n.cast_nonneg
    rw [hsum, slack, abs_le] at hnear
    push_cast at hnear
    linarith

/-- An angle that is not negative points from an edge if it is whole quarter turns. -/
theorem side?_false_iff (hr : r ≠ .top) :
    side? (ranked false r) = some side ↔ PointsFrom side r.toRat := by
  obtain ⟨turns, rest, hsum, hlt, -, hforward, -⟩ := exists_normalize_eq hr
  have hvalue : r.toRat = 360 * ((turns : Int) : Rat) + rest.toRat := by
    rw [hsum, Int.cast_natCast]
  rw [side?_eq_some_iff_normalize, hforward, and_iff_right ranked_ne_nan, toRat_false, hvalue]
  exact (pointsFrom_iff rest.toRat_nonneg (toRat_lt_turn hlt)).symm

/-- A negative angle that is turned by one more turn comes to an edge if it is whole quarter turns,
or if it lies around a quarter turn back. -/
theorem toRat_turnedBack_eq_iff_pointsFrom {turns : Nat} (hlt : rest < turnRank) (hzero : rest ≠ .zero)
    (hsum : r.toRat = 360 * turns + rest.toRat) (hunits : rest.units = r.units % turnRank.units) :
    (turnedBack rest).toRat = 90 * side.quarterTurns ↔
      PointsFrom side (-r.toRat) ∨ side = .top ∧ |-r.toRat + 90| ≤ slack := by
  have hpos := Rank.toRat_pos hzero
  have hhigh := toRat_lt_turn hlt
  have hvalue : -r.toRat = 360 * ((-(turns + 1) : Int) : Rat) + (360 - rest.toRat) := by
    rw [hsum]
    push_cast
    ring
  rw [near_quarterBack_iff hsum, toRat_turnedBack_eq_quarterTurns_iff hlt, hvalue,
    pointsFrom_iff (by linarith) (by linarith)]
  constructor
  · rintro (hexact | ⟨rfl, hnear⟩)
    · exact .inl hexact
    · cases turns with
      | zero => exact .inr ⟨rfl, rfl, hnear⟩
      | succ n =>
        -- what is left is a quarter turn then, and nothing was rounded
        left
        rw [toRat_eq_of_near (turnRank_le hsum n.succ_ne_zero) hunits hnear]
        norm_num [Side.quarterTurns]
  · rintro (hexact | ⟨hside, -, hnear⟩)
    · exact .inl hexact
    · exact .inr ⟨hside, hnear⟩

/-- A negative angle points from an edge if it is whole quarter turns, or lies around one back. -/
theorem side?_true_iff (hr : r ≠ .top) :
    side? (ranked true r) = some side ↔
      PointsFrom side (-r.toRat) ∨ side = .top ∧ |-r.toRat + 90| ≤ slack := by
  obtain ⟨turns, rest, hsum, hlt, hunits, -, hback⟩ := exists_normalize_eq hr
  rw [side?_eq_some_iff_normalize, hback]
  by_cases hzero : rest = .zero
  · -- whole turns back leave the negative zero, which is not turned
    have hvalue : -r.toRat = 360 * ((-turns : Int) : Rat) + 0 := by
      rw [hsum, hzero, Rank.toRat_zero]
      push_cast
      ring
    rw [if_pos hzero, and_iff_right ranked_ne_nan, toRat_zero, near_quarterBack_iff hsum, hvalue,
      pointsFrom_iff le_rfl (by norm_num)]
    refine ⟨.inl, fun h => h.resolve_right fun ⟨_, _, hnear⟩ => ?_⟩
    rw [hzero, Rank.toRat_zero, slack] at hnear
    norm_num [abs_le] at hnear
  · rw [if_neg hzero, and_iff_right ranked_ne_nan, toRat_false,
      toRat_turnedBack_eq_iff_pointsFrom hlt hzero hsum hunits]

/-- The angles that point from an edge are the whole quarter turns, and those that are rounded to
three of them. -/
theorem side?_eq_some_iff :
    side? degrees = some side ↔ degrees.IsFinite ∧
      (PointsFrom side degrees.toRat ∨ side = .top ∧ |degrees.toRat + 90| ≤ slack) := by
  by_cases hfinite : degrees.IsFinite
  · rw [and_iff_right hfinite]
    cases degrees with
    | nan => exact absurd hfinite id
    | ranked s r =>
      cases s with
      | false =>
        have hfar : ¬ |r.toRat + 90| ≤ slack := by
          have hr := r.toRat_nonneg
          rw [abs_of_nonneg (by linarith), slack]
          linarith
        rw [side?_false_iff hfinite, toRat_false]
        exact ⟨.inl, fun h => h.resolve_right fun hnear => hfar hnear.2⟩
      | true => rw [side?_true_iff hfinite, toRat_true]
  · rw [side?_eq_some_iff_normalize, normalize_of_not_isFinite hfinite]
    exact iff_of_false (fun h => h.1 rfl) fun h => hfinite h.1

/-! ## Whole quarter turns convert -/

theorem exists_quarterTurns_eq (k : Int) : ∃ side : Side, (side.quarterTurns : Int) = k % 4 := by
  have hrest : k % 4 = 0 ∨ k % 4 = 1 ∨ k % 4 = 2 ∨ k % 4 = 3 := by omega
  rcases hrest with hk | hk | hk | hk
  · exact ⟨.left, hk.symm⟩
  · exact ⟨.bottom, hk.symm⟩
  · exact ⟨.right, hk.symm⟩
  · exact ⟨.top, hk.symm⟩

/-- No two edges have the same quarter turns, and no two the same line. -/
theorem ofSides_singleton_eq_iff {side side' : Side} :
    Corners.ofSides [side] = Corners.ofSides [side'] ↔ side.quarterTurns = side'.quarterTurns := by
  cases side <;> cases side' <;> decide

/-- Whole quarter turns convert, however many they are. Their line is the one of the edge that they
lead to, and of no other edge. -/
theorem ofDirection_quarterTurns {k : Int} (hfinite : degrees.IsFinite)
    (hk : degrees.toRat = 90 * k) :
    (∃ line, Corners.ofDirection (.angle degrees) = .ok line) ∧
      ∀ side : Side, Corners.ofDirection (.angle degrees) = Corners.ofDirection (.keywords [side]) ↔
        (side.quarterTurns : Int) = k % 4 := by
  obtain ⟨edge, hedge⟩ := exists_quarterTurns_eq k
  have hside : side? degrees = some edge := side?_eq_some_iff.2 ⟨hfinite, .inl ⟨k, hk, hedge⟩⟩
  have hline : Corners.ofDirection (.angle degrees) = .ok (Corners.ofSides [edge]) := by
    rw [Corners.ofDirection, hside]
  refine ⟨⟨_, hline⟩, fun side => ?_⟩
  rw [hline, Corners.ofDirection, Except.ok.injEq, ofSides_singleton_eq_iff, ← hedge, Int.natCast_inj]
  exact eq_comm

/-- Whole turns back and a quarter turn more, beyond 2^53, start from the top. -/
theorem ofDirection_quarterTurns_top :
    ∃ line, Corners.ofDirection (.angle (Number.value "-18014398509481650".toList)) = .ok line ∧
      Corners.ofDirection (.keywords [.top]) = .ok line := by
  have hfinite : (Number.value "-18014398509481650".toList).IsFinite := by decide +kernel
  have hk : (Number.value "-18014398509481650".toList).toRat = 90 * (-200159983438685 : Int) := by
    decide +kernel
  obtain ⟨⟨line, hline⟩, hsides⟩ := ofDirection_quarterTurns hfinite hk
  exact ⟨line, hline, ((hsides .top).2 (by decide)).symm.trans hline⟩

/-! ## Whole quarter turns only -/

/-- An angle converts only if it is whole quarter turns, to the edge that these lead to. -/
structure ConvertsOnlyAxes (degrees : Binary64) : Prop where
  /-- The angle of an edge is finite, and its quarter turns lead to this edge. -/
  points : ∀ side, side? degrees = some side → degrees.IsFinite ∧ PointsFrom side degrees.toRat
  /-- Any other angle has no edge and is refused. -/
  refused : ¬ (degrees.IsFinite ∧ ∃ k : Int, degrees.toRat = 90 * k) →
    side? degrees = none ∧ Corners.ofDirection (.angle degrees) =
      .error (.unsupportedDirection (Direction.angle degrees).display)

/-- The number next to a quarter turn back converts like that turn. -/
theorem rounded_to_top : ¬ ConvertsOnlyAxes (Number.value "-90.00000000000001".toList) := by
  intro h
  obtain ⟨-, k, hk, -⟩ := h.points .top (by decide +kernel)
  have hvalue : (Number.value "-90.00000000000001".toList).toRat = -90 - 1 / 2 ^ 46 := by
    decide +kernel
  have hscaled : (-(90 * 2 ^ 46 + 1) : Rat) = 90 * 2 ^ 46 * k := by linarith
  have : -(90 * 2 ^ 46 + 1) = 90 * 2 ^ 46 * k := by exact_mod_cast hscaled
  omega

/-- Of the whole quarter turns only one back is near one back. -/
theorem eq_of_quarterTurns_near {k : Int} (hk : x = 90 * k) (hnear : |x + 90| ≤ slack) : x = -90 := by
  rw [hk, slack, abs_le] at hnear
  have hlower : ((-2 : Int) : Rat) < k := by push_cast; linarith
  have hupper : (k : Rat) < (0 : Int) := by push_cast; linarith
  have hlast : k = -1 := by
    have := Int.cast_lt.1 hlower
    have := Int.cast_lt.1 hupper
    omega
  rw [hk, hlast]
  norm_num

/-- Only whole quarter turns convert, but for the four numbers next to a quarter turn back. -/
theorem convertsOnlyAxes_iff :
    ConvertsOnlyAxes degrees ↔
      ¬ (degrees.IsFinite ∧ degrees.toRat ≠ -90 ∧ |degrees.toRat + 90| ≤ 1 / 2 ^ 45) := by
  constructor
  · rintro h ⟨hfinite, hne, hnear⟩
    obtain ⟨-, k, hk, -⟩ := h.points .top (side?_eq_some_iff.2 ⟨hfinite, .inr ⟨rfl, hnear⟩⟩)
    exact hne (eq_of_quarterTurns_near hk hnear)
  · intro h
    have hpoints : ∀ side, side? degrees = some side →
        degrees.IsFinite ∧ PointsFrom side degrees.toRat := by
      intro side hside
      obtain ⟨hfinite, hexact | ⟨rfl, hnear⟩⟩ := side?_eq_some_iff.1 hside
      · exact ⟨hfinite, hexact⟩
      · have hback : degrees.toRat = -90 := by
          by_contra hne
          exact h ⟨hfinite, hne, hnear⟩
        exact ⟨hfinite, -1, by rw [hback]; norm_num, by decide⟩
    refine ⟨hpoints, fun hother => ?_⟩
    have hnone : side? degrees = none := by
      cases hside : side? degrees with
      | none => rfl
      | some side =>
        obtain ⟨hfinite, k, hk, -⟩ := hpoints side hside
        exact absurd ⟨hfinite, k, hk⟩ hother
    exact ⟨hnone, by rw [Corners.ofDirection, hnone]⟩

end Angle

end LegacyGradient
