/-
  LegacyGradient.Proofs.Binary64.Display

  The texts of numbers. Finite numbers are written as numerals, so that their texts are numbers to a
  reader of gradients; NaN and the infinities are written in letters (`isNumeral_display_iff`). No
  text of a number holds a comma or a parenthesis.
-/
import LegacyGradient.Binary64.Display
import LegacyGradient.Proofs.Decimal.Digits
import LegacyGradient.Proofs.Token.Number

namespace LegacyGradient

open Number (IsNumeral)

variable {sign : Text} {x : Binary64}

/-- The positional form is a numeral, also behind a sign. -/
theorem Decimal.isNumeral_positional (hsign : sign = [] ∨ sign = ['-']) (d : Decimal) :
    IsNumeral (sign ++ d.positional) := by
  obtain ⟨wholes, point, decimals, hpositional, hne, hwholes, hdecimals, hpoint, -⟩ :=
    d.exists_positional_eq
  rw [hpositional]
  rcases hpoint with ⟨rfl, rfl⟩ | ⟨rfl, hplaces⟩
  · rw [List.append_nil, List.append_nil]
    exact Number.isNumeral_of_digits hsign hne hwholes
  · exact ⟨sign, wholes, ['.'], decimals, by simp, hsign, hwholes, .inr rfl, hplaces, hdecimals⟩

namespace Binary64

theorem isNumeral_display (h : x.IsFinite) : IsNumeral x.display := by
  cases x with
  | nan => exact absurd h id
  | ranked negative r =>
    have htop : r ≠ .top := h
    have hdistance : ∀ sign : Text, sign = [] ∨ sign = ['-'] → IsNumeral (sign ++
        if r = .zero then ['0'] else (Decimal.shortest .up r).positional) := by
      intro sign hsign
      by_cases hr : r = .zero
      · rw [if_pos hr]
        exact Number.isNumeral_of_digits hsign (by simp) (List.forall_mem_singleton.2 rfl)
      · rw [if_neg hr]
        exact Decimal.isNumeral_positional hsign _
    simp only [display, if_neg htop]
    cases negative with
    | false => exact hdistance [] (.inl rfl)
    | true => exact hdistance ['-'] (.inr rfl)

/-- What is not finite is written in letters. -/
theorem display_of_not_isFinite (h : ¬ x.IsFinite) :
    x.display ∈ ["NaN".toList, "inf".toList, "-inf".toList] := by
  cases x with
  | nan => decide
  | ranked negative r =>
    obtain rfl : r = .top := Classical.not_not.1 h
    cases negative <;> decide

/-- The texts of the finite numbers, and no others, are numbers to the scan of numbers. -/
theorem isNumeral_display_iff : IsNumeral x.display ↔ x.IsFinite := by
  constructor
  · intro hnumeral
    apply Classical.byContradiction
    intro hx
    have hletters : ∀ t ∈ ["NaN".toList, "inf".toList, "-inf".toList],
        Number.lexeme t ≠ some (t, []) := by decide
    exact hletters _ (display_of_not_isFinite hx) (Number.lexeme_self_iff.2 hnumeral)
  · exact isNumeral_display

theorem sealed_display (x : Binary64) : Text.SealedFrom 0 x.display := by
  by_cases hx : x.IsFinite
  · exact Number.lexeme_sealed (Number.lexeme_self_iff.2 (isNumeral_display hx))
  · have hletters := display_of_not_isFinite hx
    simp only [List.mem_cons, List.not_mem_nil, or_false] at hletters
    rcases hletters with h | h | h <;> rw [h] <;> exact Text.sealedFrom_of_all (by decide)

end Binary64

end LegacyGradient
