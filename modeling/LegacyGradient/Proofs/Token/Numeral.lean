/-
  LegacyGradient.Proofs.Token.Numeral

  Numbers as their authors write them, with the decimal that they stand for. The written numbers are
  the numerals (`isNumeral_iff_written`), and a numeral is read as the number closest to its decimal,
  with its sign (`value_text`). So a percentage is read from exactly the texts that are a written
  number with a percent sign, or a bare zero (`ofText?_form`).
-/
import LegacyGradient.Proofs.Binary64.Closest
import LegacyGradient.Proofs.Decimal.Positional
import LegacyGradient.Proofs.Token.Percentage

namespace LegacyGradient

open Binary64 (Rank nearestRank)

variable {n : Text}

/-- A number as it is written: an optional minus sign, any number of digits, an optional point, and
one digit or more. -/
structure WrittenNumber where
  /-- There is a minus sign. -/
  negative : Bool
  /-- The digits in front of the point. -/
  wholes : Text
  /-- There is a point. -/
  pointed : Bool
  /-- The digits at the end, which stand behind the point if there is one. -/
  decimals : Text
  /-- The first digits are digits. -/
  isDigit_wholes : ∀ c ∈ wholes, c.isDigit = true
  /-- The last digits are digits. -/
  isDigit_decimals : ∀ c ∈ decimals, c.isDigit = true
  /-- There is a last digit. -/
  decimals_ne_nil : decimals ≠ []

namespace WrittenNumber

/-- The text of the sign. -/
def sign (w : WrittenNumber) : Text := if w.negative then ['-'] else []

/-- The text of the point. -/
def point (w : WrittenNumber) : Text := if w.pointed then ['.'] else []

/-- The text of a number. -/
def text (w : WrittenNumber) : Text := w.sign ++ (w.wholes ++ w.point ++ w.decimals)

/-- The decimal without its sign: a whole number over a power of ten, with as many zeros as there
are digits behind the point. -/
def magnitude (w : WrittenNumber) : Rat :=
  Text.natOfDigits (w.wholes ++ w.decimals) / 10 ^ (if w.pointed then w.decimals.length else 0)

/-! ## The form of a number -/

theorem sign_cases (w : WrittenNumber) : w.sign = [] ∨ w.sign = ['-'] := by
  rw [sign]
  split
  · exact .inr rfl
  · exact .inl rfl

theorem point_cases (w : WrittenNumber) : w.point = [] ∨ w.point = ['.'] := by
  rw [point]
  split
  · exact .inr rfl
  · exact .inl rfl

/-- The numerals are the texts of the written numbers. -/
theorem isNumeral_iff_written : Number.IsNumeral n ↔ ∃ w : WrittenNumber, n = w.text := by
  constructor
  · rintro ⟨sign, wholes, point, decimals, rfl, hsign, hwholes, hpoint, hne, hdecimals⟩
    refine ⟨⟨sign = ['-'], wholes, point = ['.'], decimals, hwholes, hdecimals, hne⟩, ?_⟩
    rcases hsign with rfl | rfl <;> rcases hpoint with rfl | rfl <;> rfl
  · rintro ⟨w, rfl⟩
    exact ⟨w.sign, w.wholes, w.point, w.decimals, rfl, w.sign_cases, w.isDigit_wholes, w.point_cases,
      w.decimals_ne_nil, w.isDigit_decimals⟩

/-! ## The value of a number -/

theorem magnitude_nonneg (w : WrittenNumber) : 0 ≤ w.magnitude :=
  div_nonneg (Nat.cast_nonneg _) (by positivity)

/-- The digits are read as the decimal. -/
theorem magnitude_unsigned (w : WrittenNumber) :
    Number.magnitude (w.wholes ++ w.point ++ w.decimals) = w.magnitude := by
  rw [magnitude, point]
  split
  · rw [List.append_assoc, Number.magnitude_append w.isDigit_wholes (.inr rfl)]
  · have hall : ∀ c ∈ w.wholes ++ w.decimals, c.isDigit = true := by
      intro c hc
      exact (List.mem_append.1 hc).elim (w.isDigit_wholes c) (w.isDigit_decimals c)
    have hwhole := Number.magnitude_append hall (.inl ⟨rfl, rfl⟩)
    rw [List.append_nil, List.append_nil] at hwhole
    rw [List.append_nil, hwhole]
    rfl

/-- A number is read as its decimal, rounded once, with its sign. -/
theorem value_text (w : WrittenNumber) :
    Number.value w.text = .ranked w.negative (nearestRank w.magnitude) := by
  rw [text, sign]
  split
  · next hnegative =>
    rw [List.singleton_append, Number.value_minus, magnitude_unsigned,
      Binary64.ofRatOrZero_neg_of_nonneg w.magnitude_nonneg, hnegative]
  · next hpositive =>
    have hfront := Number.outside_sign w.isDigit_wholes w.point_cases w.decimals_ne_nil
      w.isDigit_decimals []
    rw [List.append_nil] at hfront
    have hhead : (w.wholes ++ w.point ++ w.decimals).head? ≠ some '-' := fun hsign =>
      Bool.noConfusion (hfront '-' hsign)
    rw [List.nil_append, Number.value_of_head hhead, magnitude_unsigned,
      Binary64.ofRatOrZero_of_nonneg w.magnitude_nonneg, Bool.eq_false_iff.2 hpositive]

end WrittenNumber

/-! ## Percentages -/

namespace Percentage

/-- Apart from the blanks around it, a percentage is a bare zero or a written number with a percent
sign, and then its value has the sign of the number and is closest to its decimal; infinity counts as
2^1024 among the numbers. Of the lengths the percentages are the bare zero and those in percent. -/
theorem ofText?_form (t : Text) :
    (∀ x, ofText? t = some x ↔
      t.trim = ['0'] ∧ x = 0 ∨
        ∃ (w : WrittenNumber) (r : Rank), t.trim = w.text ++ ['%'] ∧ x = .ranked w.negative r ∧
          r.IsClosest w.magnitude) ∧
    (Length.lexeme t = some (t, []) →
      ((ofText? t).isSome = true ↔ t = ['0'] ∨ ∃ w : WrittenNumber, t = w.text ++ ['%'])) := by
  constructor
  · intro x
    rw [ofText?_eq_some_iff, or_comm]
    refine or_congr_right ⟨?_, ?_⟩
    · rintro ⟨n, hn, ht, rfl⟩
      obtain ⟨w, rfl⟩ := WrittenNumber.isNumeral_iff_written.1 hn
      exact ⟨w, nearestRank w.magnitude, ht, w.value_text,
        Binary64.isClosest_nearestRank w.magnitude_nonneg⟩
    · rintro ⟨w, r, ht, rfl, hclosest⟩
      obtain rfl := (Binary64.isClosest_iff w.magnitude_nonneg).1 hclosest
      exact ⟨w.text, WrittenNumber.isNumeral_iff_written.2 ⟨w, rfl⟩, ht, w.value_text.symm⟩
  · intro hlength
    rw [isSome_ofText?_iff hlength, IsPercentage]
    refine or_congr_right ⟨?_, ?_⟩
    · rintro ⟨n, hn, ht⟩
      obtain ⟨w, rfl⟩ := WrittenNumber.isNumeral_iff_written.1 (Number.lexeme_self_iff.1 hn)
      exact ⟨w, ht⟩
    · rintro ⟨w, ht⟩
      exact ⟨w.text, Number.lexeme_self_iff.2 (WrittenNumber.isNumeral_iff_written.2 ⟨w, rfl⟩), ht⟩

/-- The number `-.5`. -/
def minusHalf : WrittenNumber where
  negative := true
  wholes := []
  pointed := true
  decimals := ['5']
  isDigit_wholes := by simp
  isDigit_decimals := List.forall_mem_singleton.2 rfl
  decimals_ne_nil := List.cons_ne_nil _ _

/-- A percentage between blanks, and a length that is none. -/
theorem ofText?_form_two :
    (∃ x : Binary64, ofText? "\u00a0-.5%\n".toList = some x ∧ x.toRat = -(1 / 2)) ∧
      Length.lexeme "1.5em".toList = some ("1.5em".toList, []) ∧
      (ofText? "1.5em".toList).isSome = false := by
  have hlength : Length.lexeme "1.5em".toList = some ("1.5em".toList, []) := by decide
  refine ⟨?_, hlength, ?_⟩
  · have htrim : Text.trim "\u00a0-.5%\n".toList = minusHalf.text ++ ['%'] := by decide
    have hclosest := Binary64.isClosest_nearestRank minusHalf.magnitude_nonneg
    exact ⟨.ranked true (nearestRank minusHalf.magnitude),
      ((ofText?_form _).1 _).2 (.inr ⟨minusHalf, _, htrim, rfl, hclosest⟩), by decide +kernel⟩
  · refine Bool.eq_false_iff.2 fun hsome => ?_
    rcases ((ofText?_form _).2 hlength).1 hsome with hzero | ⟨w, hw⟩
    · exact absurd hzero (by decide)
    · -- the last characters differ
      have hlast := congrArg List.getLast? hw
      rw [List.getLast?_append_of_ne_nil _ (by simp)] at hlast
      exact absurd hlast (by decide)

end Percentage

end LegacyGradient
