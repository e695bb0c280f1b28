/-
  LegacyGradient.Proofs.Json.Lasting

  Floating point numbers in JSON and back. A number is written with the digits of its shortest
  decimal. What is read is these digits, rounded, times or by a power of ten, rounded, and the
  result is rounded again, so that not every number is read as itself (`reread`). Where the digits
  and the power are numbers themselves a single rounding is left, and the number lasts
  (`lasting_of_short`). What is not finite is written as null and never read again.
-/
import LegacyGradient.Proofs.Json.Number

namespace LegacyGradient.Json

open Binary64 (Rank div_eq mul_eq ofNat_eq)
open Text (natOfDigits)

variable {k n : Nat} {x : Binary64} {r : Rank}

/-! ## Small powers of ten -/

/-- The powers of ten up to the twenty-second are numbers. -/
theorem exists_tenPow_eq (hk : k ≤ 22) :
    ∃ r, Numeral.tenPow k = .ranked false r ∧ r ≠ .zero ∧ r ≠ .top ∧ r.toRat = 10 ^ k := by
  have hexact : ∀ k ≤ 22, Binary64.nearestRank (10 ^ k) ≠ .zero ∧
      Binary64.nearestRank (10 ^ k) ≠ .top ∧ (Binary64.nearestRank (10 ^ k)).toRat = 10 ^ k := by
    decide +kernel
  refine ⟨_, ?_, hexact k hk⟩
  rw [Numeral.tenPow, Binary64.ofRat, decide_eq_false (not_lt.2 (by positivity))]

/-- Scaling a whole number by a small power of ten rounds once, to the number nearest to the exact
value. -/
theorem scale?_small (hpos : 0 < n) (hn : n < 2 ^ 53) {power : Int} (hpower : power.natAbs ≤ 22)
    (hfinite : Binary64.nearestRank (n * 10 ^ power) ≠ .top) :
    Numeral.scale? (.ofNat n) power =
      some (.ranked false (Binary64.nearestRank (n * 10 ^ power))) := by
  -- neither the number nor the power of ten is rounded, so only their product or quotient is
  obtain ⟨r, hr, -, htop, hvalue⟩ := ofNat_eq hpos hn
  have hcast : (0 : Rat) < n := Nat.cast_pos.2 hpos
  rcases le_or_gt 0 power with hsign | hsign
  · obtain ⟨k, rfl⟩ := Int.eq_ofNat_of_zero_le hsign
    rw [Int.natAbs_natCast] at hpower
    obtain ⟨r', hr', -, htop', hvalue'⟩ := exists_tenPow_eq hpower
    have hproduct : Binary64.ofNat n * Numeral.tenPow k =
        .ranked false (Binary64.nearestRank (n * 10 ^ (k : Int))) := by
      rw [hr, hr', mul_eq htop htop', Binary64.toRat_false, Binary64.toRat_false, hvalue, hvalue',
        zpow_natCast]
      exact Binary64.ofRatOrZero_of_pos (by positivity)
    rw [Numeral.scale?_natCast (by omega), hproduct]
    exact if_pos hfinite
  · obtain ⟨k, hk, rfl⟩ : ∃ k : Nat, 0 < k ∧ power = -k := ⟨power.natAbs, by omega, by omega⟩
    rw [Int.natAbs_neg, Int.natAbs_natCast] at hpower
    obtain ⟨r', hr', hzero', htop', hvalue'⟩ := exists_tenPow_eq hpower
    rw [Numeral.scale?_neg hk (by omega), hr, hr', div_eq htop hzero' htop', Binary64.toRat_false,
      Binary64.toRat_false, hvalue, hvalue', zpow_neg, zpow_natCast, ← div_eq_mul_inv]
    exact congrArg some (Binary64.ofRatOrZero_of_pos (by positivity))

/-! ## Numbers and back -/

/-- The number that is read where the decimal is written, if it is finite. The digits count as a
whole number, which is rounded, and scaled by a power of ten, which is rounded too. -/
def rescaled? (d : Decimal) : Option Binary64 :=
  Numeral.scale? (.ofNat d.writtenDigits) d.writtenPlace

/-- The problem with a number that is not finite: it is written as null. -/
def notANumber : Problem := .mismatch (.wrongType .null "f64".toList)

/-- What is read where a number was written. -/
def reread : Binary64 → Except Problem Binary64
  | .nan => .error notANumber
  | .ranked negative r =>
    if r = .top then .error notANumber
    else if r = .zero then .ok (.ranked negative .zero)
    else (rescaled? (.shortest .even r)).elim (.error .malformed) fun x =>
      .ok (if negative then -x else x)

theorem reread_of_not_isFinite (h : ¬ x.IsFinite) : reread x = .error notANumber := by
  cases x with
  | nan => rfl
  | ranked negative r => exact if_pos (not_not.1 h)

/-- A decimal with any digits but zeros is read as its digits scaled. -/
theorem decimal_gives (negative : Bool) {d : Decimal} (hpos : 0 < d.significand)
    (hle : d.significand ≤ 10 ^ 17) :
    Reader.binary64.Gives ((if negative then ['-'] else []) ++ d.jsonText)
      ((rescaled? d).elim (.error .malformed) fun x => .ok (if negative then -x else x)) := by
  obtain ⟨t, ht⟩ := d.exists_parts negative hpos
  have hfits : natOfDigits t.digits ≤ Numeral.maxWord := by
    rw [ht.digits]
    exact d.writtenDigits_le hle
  have hvalue : Numeral.value? t = (rescaled? d).map fun x => if negative then -x else x := by
    rw [Numeral.value?, ht.digits, ht.place, ht.sign, rescaled?]
  have hread := Reader.binary64_gives ht.plain hfits ht.form
  rw [ht.text, hvalue, Option.elim_map] at hread
  exact hread

theorem zero_gives (negative : Bool) :
    Reader.binary64.Gives ((if negative then ['-'] else []) ++ "0.0".toList)
      (.ok (.ranked negative .zero)) := by
  have hplain : NumeralText.Plain ⟨negative, ['0'], some ['0'], none⟩ :=
    ⟨by simp, by simp, by simp, by simp⟩
  have hread := Reader.binary64_gives hplain (Nat.zero_le _) (.inl (by simp))
  have hquotient : Binary64.ofNat 0 / Numeral.tenPow 1 = .ranked false .zero := by decide +kernel
  have hvalue : Numeral.value? ⟨negative, ['0'], some ['0'], none⟩ =
      some (.ranked negative .zero) := by
    have hscale : Numeral.scale? (.ofNat 0) (-(1 : Nat)) = some (.ranked false .zero) := by
      rw [Numeral.scale?_neg (by decide) (by decide), hquotient]
    show (Numeral.scale? (.ofNat 0) (-(1 : Nat))).map _ = _
    rw [hscale]
    cases negative <;> rfl
  rw [hvalue, NumeralText.text] at hread
  exact hread

theorem numberText_ranked (hr : r ≠ .top) (negative : Bool) :
    numberText (.ranked negative r) = (if negative then ['-'] else []) ++
      (if r = .zero then "0.0".toList else (Decimal.shortest .even r).jsonText) := by
  have hfinite : finiteText r =
      if r = .zero then "0.0".toList else (Decimal.shortest .even r).jsonText := rfl
  rw [numberText, if_neg hr, hfinite]
  cases negative <;> rfl

/-- What is read where a number was written. -/
theorem numberText_gives (x : Binary64) : Reader.binary64.Gives (numberText x) (reread x) := by
  cases x with
  | nan => exact Reader.binary64_null
  | ranked negative r =>
    by_cases htop : r = .top
    · rw [reread, numberText, if_pos htop, if_pos htop]
      exact Reader.binary64_null
    · rw [numberText_ranked htop, reread, if_neg htop]
      by_cases hzero : r = .zero
      · rw [if_pos hzero, if_pos hzero]
        exact zero_gives negative
      · rw [if_neg hzero, if_neg hzero]
        have hpos := Binary64.Rank.toRat_pos hzero
        exact decimal_gives negative (Decimal.significand_shortest_pos .even hpos)
          (Decimal.significand_shortest_le .even hpos)

/-! ## Lasting numbers -/

/-- The number is finite, and it is zero or the scaled digits of its decimal give it again. -/
def Lasting : Binary64 → Prop
  | .nan => False
  | .ranked _ r =>
    r ≠ .top ∧ (r = .zero ∨ rescaled? (.shortest .even r) = some (.ranked false r))

theorem signed_eq_ranked_iff {negative : Bool} :
    (if negative then -x else x) = .ranked negative r ↔ x = .ranked false r := by
  cases x with
  | nan => cases negative <;> simp [show -Binary64.nan = .nan from rfl]
  | ranked s r' =>
    have hneg : -Binary64.ranked s r' = .ranked (!s) r' := rfl
    cases negative <;> cases s <;> simp [hneg]

theorem reread_eq_ok_iff : reread x = .ok x ↔ Lasting x := by
  cases x with
  | nan => simp [reread, Lasting]
  | ranked negative r =>
    rw [reread, Lasting]
    by_cases htop : r = .top
    · simp [htop]
    · rw [if_neg htop]
      by_cases hzero : r = .zero
      · simp [hzero, Binary64.top_ne_zero.symm]
      · rw [if_neg hzero]
        cases hrescaled : rescaled? (.shortest .even r) with
        | none => simp [hzero]
        | some y => simp [htop, hzero, signed_eq_ranked_iff]

/-- A number lasts if its decimal has digits for less than 2^53 and no more than twenty-two places
before or behind the last of them. -/
theorem lasting_of_short {negative : Bool} (htop : r ≠ .top)
    (hdigits : (Decimal.shortest .even r).writtenDigits < 2 ^ 53)
    (hplace : (Decimal.shortest .even r).writtenPlace.natAbs ≤ 22) :
    Lasting (.ranked negative r) := by
  refine ⟨htop, ?_⟩
  by_cases hzero : r = .zero
  · exact .inl hzero
  · right
    have hpos := Binary64.Rank.toRat_pos hzero
    have hwritten := Decimal.writtenDigits_pos (Decimal.significand_shortest_pos .even hpos)
    have hback := Decimal.readsBack_shortest .even hpos
    rw [Decimal.ReadsBack, ← Decimal.toRat_written] at hback
    rw [rescaled?, scale?_small hwritten hdigits hplace (by rwa [hback]), hback]

end LegacyGradient.Json
