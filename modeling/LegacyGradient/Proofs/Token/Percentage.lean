/-
  LegacyGradient.Proofs.Token.Percentage

  Percentages among the lengths. The scan of lengths and the reading of percentages are two rules of
  their own; on what is a length as a whole they agree that a percentage is a number with a percent
  sign or a bare zero (`isSome_ofText?_iff`).
-/
import LegacyGradient.Length
import LegacyGradient.Proofs.Text.Trim
import LegacyGradient.Proofs.Token.Length

namespace LegacyGradient.Percentage

variable {t l : Text} {x : Binary64}

/-- A number with a percent sign, or a bare zero. -/
def IsPercentage (l : Text) : Prop :=
  l = ['0'] ∨ ∃ n, Number.lexeme n = some (n, []) ∧ l = n ++ ['%']

/-- A text is scanned as a whole if it is a number with a percent sign, whose value it then has, or
a bare zero. -/
theorem scan_whole_iff :
    scan t = some (x, []) ↔
      (∃ n, Number.IsNumeral n ∧ t = n ++ ['%'] ∧ x = Number.value n) ∨ t = ['0'] ∧ x = 0 := by
  simp only [scan, Option.orElse_eq_orElse, Option.orElse_eq_or, Option.or_eq_some_iff,
    Option.bind_eq_bind, Option.bind_eq_some_iff, Prod.exists, Option.pure_def, Option.some.injEq,
    Prod.mk.injEq, Lexeme.char_eq_some_iff]
  constructor
  · rintro (⟨n, r, hn, _, _, ⟨rfl, rfl⟩, rfl, rfl⟩ | ⟨-, _, _, ⟨rfl, rfl⟩, rfl, rfl⟩)
    · exact .inl ⟨n, Number.isNumeral_of_lexeme hn, (Number.lexeme.append_of_scan hn).symm, rfl⟩
    · exact .inr ⟨rfl, rfl⟩
  · rintro (⟨n, hn, rfl, rfl⟩ | ⟨rfl, rfl⟩)
    · exact .inl ⟨n, ['%'], hn.lexeme_append (Text.outside_cons.2 rfl), _, _, ⟨rfl, rfl⟩, rfl, rfl⟩
    · -- a zero is a number, and no percent sign comes after it
      have hzero := Number.lexeme_zero (v := []) Text.outside_nil
      refine .inr ⟨?_, _, _, ⟨rfl, rfl⟩, rfl, rfl⟩
      rw [hzero, Option.bind_some, Lexeme.char_eq_none Text.outside_nil, Option.bind_none]

/-- What is a percentage apart from the blanks around it. -/
theorem ofText?_eq_some_iff :
    ofText? t = some x ↔
      (∃ n, Number.IsNumeral n ∧ t.trim = n ++ ['%'] ∧ x = Number.value n) ∨
        t.trim = ['0'] ∧ x = 0 := by
  rw [ofText?, wholeText_eq_some_iff, scan_whole_iff]

/-- The lengths that are read as percentages are those in percent and the bare zero. -/
theorem isSome_ofText?_iff (h : Length.lexeme l = some (l, [])) :
    (ofText? l).isSome = true ↔ IsPercentage l := by
  simp only [Option.isSome_iff_exists, ofText?_eq_some_iff, (Length.lexeme_trimmed h).trim_eq,
    IsPercentage, Number.lexeme_self_iff]
  constructor
  · rintro ⟨x, ⟨n, hn, hl, -⟩ | ⟨hl, -⟩⟩
    · exact .inr ⟨n, hn, hl⟩
    · exact .inl hl
  · rintro (hl | ⟨n, hn, hl⟩)
    · exact ⟨0, .inr ⟨hl, rfl⟩⟩
    · exact ⟨Number.value n, .inl ⟨n, hn, hl, rfl⟩⟩

end LegacyGradient.Percentage
