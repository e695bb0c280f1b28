/-
  LegacyGradient.Proofs.Text.Classes

  Classes of characters that exclude each other: no letter, digit or sign of a token is a blank.
-/
import LegacyGradient.Color
import LegacyGradient.Proofs.Token.Number

namespace LegacyGradient.Text

variable {c : Char}

/-- The visible characters below the code point 128 are no blanks. -/
theorem isBlank_eq_false (h : 0x20 < c.toNat) (h' : c.toNat < 0x80) : isBlank c = false := by
  simp only [isBlank, Bool.or_eq_false_iff, Bool.and_eq_false_iff, beq_eq_false_iff_ne,
    decide_eq_false_iff_not]
  omega

theorem isBlank_of_between {a b : Char} (ha : 0x20 < a.toNat) (hb : b.toNat < 0x80) (hac : a ≤ c)
    (hcb : c ≤ b) : isBlank c = false :=
  isBlank_eq_false (Nat.lt_of_lt_of_le ha (UInt32.le_iff_toNat_le.1 (Char.le_def.1 hac)))
    (Nat.lt_of_le_of_lt (UInt32.le_iff_toNat_le.1 (Char.le_def.1 hcb)) hb)

theorem isBlank_of_isLower (h : c.isLower = true) : isBlank c = false := by
  obtain ⟨ha, hz⟩ := Number.between_of_isLower h
  exact isBlank_of_between (by decide) (by decide) ha hz

theorem isBlank_of_isDigit (h : c.isDigit = true) : isBlank c = false := by
  simp only [Char.isDigit, Bool.and_eq_true, decide_eq_true_eq] at h
  exact isBlank_of_between (a := '0') (b := '9') (by decide) (by decide) h.1 h.2

theorem isBlank_of_isNumeric (h : Number.isNumeric c = true) : isBlank c = false := by
  simp only [Number.isNumeric, Bool.or_eq_true, beq_iff_eq] at h
  rcases h with (h | rfl) | rfl
  · exact isBlank_of_isDigit h
  · rfl
  · rfl

theorem isBlank_of_isHexDigit (h : Color.isHexDigit c = true) : isBlank c = false := by
  simp only [Color.isHexDigit, hexDigitValue?] at h
  split at h
  case isTrue hdigit => exact isBlank_of_isDigit hdigit
  split at h
  case isTrue hsmall => exact isBlank_of_between (by decide) (by decide) hsmall.1 hsmall.2
  split at h
  case isTrue hlarge => exact isBlank_of_between (by decide) (by decide) hlarge.1 hlarge.2
  case isFalse => contradiction

theorem isGap_eq_false (h : isBlank c = false) : isGap c = false := by
  refine Bool.eq_false_iff.2 fun hgap => ?_
  rw [isBlank_of_isGap hgap] at h
  contradiction

/-- The characters of a token do not come first in blanks. -/
theorem outside_of_isGap {p : Char → Bool} {g : Text} (hp : ∀ c, p c = true → isBlank c = false)
    (hg : ∀ c ∈ g, isGap c = true) : Outside p g := by
  intro c hc
  refine Bool.eq_false_iff.2 fun hpc => ?_
  have := isGap_eq_false (hp c hpc)
  rw [hg c (List.mem_of_mem_head? hc)] at this
  contradiction

end LegacyGradient.Text
