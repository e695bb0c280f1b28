/-
  LegacyGradient.Proofs.Decimal.Positional

  Numbers written in their places. The positional form of a decimal denotes its value
  (`magnitude_positional`). So a finite number is what its text denotes (`value_display`), and since
  the texts of the infinities are no numerals, different numbers have different texts
  (`display_inj`).
-/
import LegacyGradient.Proofs.Binary64.Display
import LegacyGradient.Proofs.Decimal.Shortest

namespace LegacyGradient

open Text (natOfDigits)

variable {wholes point decimals t : Text} {x y : Binary64}

/-! ## The value of a numeral -/

/-- The value of digits with an optional point among them. -/
theorem Number.magnitude_append (hwholes : ∀ c ∈ wholes, c.isDigit = true)
    (hpoint : point = [] ∧ decimals = [] ∨ point = ['.']) :
    magnitude (wholes ++ (point ++ decimals)) =
      natOfDigits (wholes ++ decimals) / 10 ^ decimals.length := by
  have houtside : Text.Outside Char.isDigit (point ++ decimals) := by
    rcases hpoint with ⟨rfl, rfl⟩ | rfl
    · exact Text.outside_nil
    · exact Text.outside_cons.2 rfl
  have hrest : (point ++ decimals).drop 1 = decimals := by
    rcases hpoint with ⟨rfl, rfl⟩ | rfl <;> rfl
  rw [magnitude, Text.takeWhile_append_outside hwholes houtside,
    Text.dropWhile_append_outside hwholes houtside, hrest]

theorem Number.value_of_head (h : t.head? ≠ some '-') :
    value t = .ofRatOrZero false (magnitude t) := by
  rw [value]
  rintro t' rfl
  exact h rfl

theorem Number.value_minus (t : Text) : value ('-' :: t) = .ofRatOrZero true (-magnitude t) := rfl

namespace Decimal

/-- The positional form of a decimal denotes its value. -/
theorem magnitude_positional (d : Decimal) : Number.magnitude d.positional = d.toRat := by
  obtain ⟨wholes, point, decimals, hpositional, -, hwholes, -, hpoint, hvalue⟩ :=
    d.exists_positional_eq
  rw [hpositional, Number.magnitude_append hwholes (hpoint.imp_right And.left), hvalue]

/-- A positional form begins with a digit, not with a sign. -/
theorem head?_positional (d : Decimal) : d.positional.head? ≠ some '-' := by
  obtain ⟨wholes, point, decimals, hpositional, hne, hwholes, -⟩ := d.exists_positional_eq
  obtain ⟨c, wholes, rfl⟩ := List.exists_cons_of_ne_nil hne
  rw [hpositional]
  intro hhead
  obtain rfl := Option.some.inj hhead
  exact absurd (hwholes '-' (by simp)) (by decide)

end Decimal

/-! ## The texts of numbers -/

namespace Binary64

/-- A finite number is read back from its text. -/
theorem value_display (h : x.IsFinite) : Number.value x.display = x := by
  cases x with
  | nan => exact absurd h id
  | ranked negative r =>
    have htop : r ≠ .top := h
    by_cases hzero : r = .zero
    · subst hzero
      cases negative <;> decide +kernel
    · have hpos := Rank.toRat_pos hzero
      have hback := Decimal.readsBack_shortest .up hpos
      have hdecimal : 0 < (Decimal.shortest .up r).toRat :=
        mul_pos (Nat.cast_pos.2 (Decimal.significand_shortest_pos .up hpos)) (ten_zpow_pos _)
      simp only [display, if_neg htop, if_neg hzero]
      cases negative with
      | false =>
        rw [if_neg Bool.false_ne_true, Number.value_of_head (Decimal.head?_positional _),
          Decimal.magnitude_positional, ofRatOrZero_of_pos hdecimal, hback]
      | true =>
        rw [if_pos rfl, Number.value_minus, Decimal.magnitude_positional,
          ofRatOrZero_neg_of_nonneg hdecimal.le, hback]

/-- Different numbers have different texts. -/
theorem display_inj (hx : x ≠ nan) (hy : y ≠ nan) (h : x.display = y.display) : x = y := by
  by_cases hfinite : x.IsFinite
  · have hfinite' : y.IsFinite := by rwa [← isNumeral_display_iff, ← h, isNumeral_display_iff]
    rw [← value_display hfinite, h, value_display hfinite']
  · have hfinite' : ¬ y.IsFinite := by rwa [← isNumeral_display_iff, ← h, isNumeral_display_iff]
    obtain ⟨s, r, rfl⟩ := exists_ranked hx
    obtain ⟨s', r', rfl⟩ := exists_ranked hy
    obtain rfl : r = .top := not_not.1 hfinite
    obtain rfl : r' = .top := not_not.1 hfinite'
    -- the infinities differ in their sign
    revert h
    cases s <;> cases s' <;> decide

end Binary64

end LegacyGradient
