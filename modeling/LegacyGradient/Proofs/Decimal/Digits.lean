/-
  LegacyGradient.Proofs.Decimal.Digits

  The digits of a natural number. They denote it (`natOfDigits_ofNat`), zeros behind them count as
  powers of ten, zeros before them count for nothing, and the first of them is no zero. The digits
  of a decimal are those of its significand, and its positional form is made of them, of zeros and
  of a point (`Decimal.exists_positional_eq`).
-/
import LegacyGradient.Decimal.Basic
import Mathlib.Algebra.Field.Rat
import Mathlib.Algebra.Group.Nat.Defs
import Mathlib.Data.Rat.Cast.Order
import Mathlib.Tactic.NormNum

namespace LegacyGradient

namespace Text

variable {n k : Nat} {s t : Text} {c : Char}

theorem isDigit_of_mem_ofNat (h : c ∈ ofNat n) : c.isDigit = true :=
  Nat.isDigit_of_mem_toDigits (by decide) (by decide) h

/-! ## Their value -/

/-- The number with the digits of `n` and these after them. -/
def appendDigits (n : Nat) (t : Text) : Nat := t.foldl (fun n c => 10 * n + digitValue c) n

theorem appendDigits_cons (n : Nat) (c : Char) (t : Text) :
    appendDigits n (c :: t) = appendDigits (10 * n + digitValue c) t := List.foldl_cons ..

theorem appendDigits_zeros (n k : Nat) : appendDigits n (List.replicate k '0') = n * 10 ^ k := by
  induction k generalizing n with
  | zero => exact (Nat.mul_one n).symm
  | succ k ih =>
    rw [List.replicate_succ, appendDigits_cons, ih, Nat.pow_succ', ← Nat.mul_assoc, Nat.mul_comm n]
    rfl

theorem le_appendDigits (n : Nat) (t : Text) : n ≤ appendDigits n t := by
  induction t generalizing n with
  | nil => exact Nat.le_refl n
  | cons c t ih =>
    rw [appendDigits_cons]
    exact Nat.le_trans (by omega) (ih _)

theorem natOfDigits_append (s t : Text) :
    natOfDigits (s ++ t) = appendDigits (natOfDigits s) t := List.foldl_append

theorem natOfDigits_zeros_append (k : Nat) (t : Text) :
    natOfDigits (List.replicate k '0' ++ t) = natOfDigits t := by
  have hzeros : natOfDigits (List.replicate k '0') = 0 :=
    (appendDigits_zeros 0 k).trans (Nat.zero_mul _)
  rw [natOfDigits_append, hzeros]
  rfl

theorem natOfDigits_ofNat (n : Nat) : natOfDigits (ofNat n) = n :=
  Nat.ofDigitChars_toDigits (by decide) (by decide)

/-! ## Their number -/

theorem ofNat_ne_nil (n : Nat) : ofNat n ≠ [] := Nat.toDigits_ne_nil

theorem length_ofNat_pos (n : Nat) : 0 < (ofNat n).length := Nat.length_toDigits_pos

/-- A number below a power of ten has no more digits than the power has zeros. -/
theorem length_ofNat_le_iff (hk : 0 < k) : (ofNat n).length ≤ k ↔ n < 10 ^ k :=
  Nat.length_toDigits_le_iff (by decide) hk

theorem lt_pow_length_ofNat (n : Nat) : n < 10 ^ (ofNat n).length :=
  (length_ofNat_le_iff (length_ofNat_pos n)).1 (Nat.le_refl _)

theorem pow_length_ofNat_le (hn : 0 < n) : 10 ^ ((ofNat n).length - 1) ≤ n := by
  have hlength := length_ofNat_pos n
  by_cases hone : (ofNat n).length - 1 = 0
  · rwa [hone, Nat.pow_zero]
  · refine Nat.not_lt.1 fun hlt => ?_
    have := (length_ofNat_le_iff (Nat.pos_of_ne_zero hone)).2 hlt
    omega

/-- The first digit of a number that is not zero is no zero. -/
theorem head_ofNat (hn : 0 < n) : (ofNat n).head? ≠ some '0' := by
  induction n using Nat.strongRecOn with
  | ind n ih =>
    have hdigit : ∀ n < 10, 0 < n → Nat.digitChar n ≠ '0' := by decide
    rw [ofNat, Nat.toDigits_eq_if (by decide)]
    split
    · next hlt => simpa using hdigit n hlt hn
    · next hge =>
      obtain ⟨c, t, hrest⟩ := List.exists_cons_of_ne_nil (ofNat_ne_nil (n / 10))
      have hc := ih (n / 10) (by omega) (by omega)
      rw [hrest] at hc
      rw [ofNat] at hrest
      rwa [hrest]

end Text

/-! ## The digits of a decimal -/

namespace Decimal

theorem digits_ne_nil (d : Decimal) : d.digits ≠ [] := Text.ofNat_ne_nil _

theorem isDigit_digits (d : Decimal) : ∀ c ∈ d.digits, c.isDigit = true := fun _ =>
  Text.isDigit_of_mem_ofNat

theorem natOfDigits_digits (d : Decimal) : Text.natOfDigits d.digits = d.significand :=
  Text.natOfDigits_ofNat _

theorem forall_isDigit_zeros (k : Nat) : ∀ c ∈ List.replicate k '0', c.isDigit = true := by
  intro c hc
  rw [List.eq_of_mem_replicate hc]
  rfl

/-- A positional form is digits, with a point among them where the places go below one. -/
theorem exists_positional_eq (d : Decimal) :
    ∃ wholes point decimals, d.positional = wholes ++ (point ++ decimals) ∧ wholes ≠ [] ∧
      (∀ c ∈ wholes, c.isDigit = true) ∧ (∀ c ∈ decimals, c.isDigit = true) ∧
      (point = [] ∧ decimals = [] ∨ point = ['.'] ∧ decimals ≠ []) ∧
      (Text.natOfDigits (wholes ++ decimals) : Rat) / 10 ^ decimals.length = d.toRat := by
  have hdigits := d.isDigit_digits
  rw [positional, toRat]
  cases hplace : d.place with
  | ofNat zeros =>
    refine ⟨d.digits ++ List.replicate zeros '0', [], [], by simp, by simp [d.digits_ne_nil],
      List.forall_mem_append.2 ⟨hdigits, forall_isDigit_zeros zeros⟩, by simp, .inl ⟨rfl, rfl⟩, ?_⟩
    rw [List.append_nil, Text.natOfDigits_append, natOfDigits_digits, Text.appendDigits_zeros,
      List.length_nil, pow_zero, div_one, Int.ofNat_eq_natCast, zpow_natCast]
    push_cast
    rfl
  | negSucc n =>
    have hpower : ∀ m : Nat, (m : Rat) / 10 ^ (n + 1) = m * 10 ^ Int.negSucc n := by
      intro m
      rw [zpow_negSucc, div_eq_mul_inv]
    dsimp only
    split
    -- the point stands among the digits
    · next hn =>
      let wholes := d.digits.length - (n + 1)
      have hwholes : (d.digits.take wholes).length = wholes := by
        rw [List.length_take]
        omega
      have hplaces : (d.digits.drop wholes).length = n + 1 := by
        rw [List.length_drop]
        omega
      refine ⟨d.digits.take wholes, ['.'], d.digits.drop wholes, rfl, ?_,
        fun c hc => hdigits c (List.mem_of_mem_take hc),
        fun c hc => hdigits c (List.mem_of_mem_drop hc), .inr ⟨rfl, ?_⟩, ?_⟩
      · rw [← List.length_pos_iff]
        omega
      · rw [← List.length_pos_iff]
        omega
      · rw [List.take_append_drop, natOfDigits_digits, hplaces, hpower]
    -- or before all of them, and zeros fill up
    · next hn =>
      let zeros := n + 1 - d.digits.length
      have hplaces : (List.replicate zeros '0' ++ d.digits).length = n + 1 := by
        rw [List.length_append, List.length_replicate]
        omega
      have hvalue : Text.natOfDigits (['0'] ++ (List.replicate zeros '0' ++ d.digits)) =
          d.significand := by
        rw [← List.append_assoc]
        exact (Text.natOfDigits_zeros_append (zeros + 1) d.digits).trans d.natOfDigits_digits
      refine ⟨['0'], ['.'], List.replicate zeros '0' ++ d.digits, rfl, by simp,
        List.forall_mem_singleton.2 rfl,
        List.forall_mem_append.2 ⟨forall_isDigit_zeros zeros, hdigits⟩,
        .inr ⟨rfl, by simp [d.digits_ne_nil]⟩, ?_⟩
      rw [hvalue, hplaces, hpower]

end Decimal

end LegacyGradient
