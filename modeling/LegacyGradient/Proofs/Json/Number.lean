/-
  LegacyGradient.Proofs.Json.Number

  Written decimals as JSON numbers. Whether the digits of a decimal stand in their places, with or
  without a point among them, or before a power of ten, the text has the parts of one number
  (`exists_parts`), and its digits and the place of the last one have the value of the decimal
  (`toRat_written`).
-/
import LegacyGradient.Json.Number
import LegacyGradient.Proofs.Decimal.Shortest
import LegacyGradient.Proofs.Json.Numeral

namespace LegacyGradient

open Json (NumeralText Numeral)
open Text (natOfDigits)

variable {d : Decimal}

namespace Decimal

/-! ## The parts of a written decimal -/

/-- Whether all digits of a decimal are written in their places. -/
def InPlaces (d : Decimal) : Prop := -5 ≤ d.leadingPlace ∧ d.leadingPlace < 16

instance (d : Decimal) : Decidable d.InPlaces := inferInstanceAs (Decidable (_ ∧ _))

/-- The JSON text of a decimal. -/
def jsonText (d : Decimal) : Text :=
  if d.InPlaces then
    if 0 ≤ d.place then d.positional ++ ".0".toList else d.positional
  else d.scientific

/-- The digits that are written for a decimal, as one number. A whole number in its places has a
fraction of one zero. -/
def writtenDigits (d : Decimal) : Nat :=
  if d.InPlaces ∧ 0 ≤ d.place then d.significand * 10 ^ (d.place.toNat + 1) else d.significand

/-- The power of ten that the last written digit counts. -/
def writtenPlace (d : Decimal) : Int := if d.InPlaces ∧ 0 ≤ d.place then -1 else d.place

/-- The number has the parts of the written decimal. -/
structure Parts (negative : Bool) (d : Decimal) (t : NumeralText) : Prop where
  /-- The parts make up a number. -/
  plain : t.Plain
  /-- The text is that of the decimal behind its sign. -/
  text : t.text = (if negative then ['-'] else []) ++ d.jsonText
  /-- The sign is found again. -/
  sign : t.negative = negative
  /-- A point or a power of ten is written. -/
  form : t.fraction ≠ none ∨ t.power ≠ none
  /-- The digits are the written ones. -/
  digits : natOfDigits t.digits = d.writtenDigits
  /-- The last of them counts the place of the decimal. -/
  place : t.power.getD 0 - (t.fraction.getD []).length = d.writtenPlace

theorem jsonText_of_inPlaces (hplaces : d.InPlaces) (hplace : 0 ≤ d.place) :
    d.jsonText = d.positional ++ ".0".toList := by
  rw [jsonText, if_pos hplaces, if_pos hplace]

theorem jsonText_of_place_neg (hplaces : d.InPlaces) (hplace : ¬ 0 ≤ d.place) :
    d.jsonText = d.positional := by
  rw [jsonText, if_pos hplaces, if_neg hplace]

/-- A whole number in its places. -/
theorem parts_whole (negative : Bool) (hd : 0 < d.significand) (hplaces : d.InPlaces) {zeros : Nat}
    (hplace : d.place = zeros) :
    Parts negative d ⟨negative, d.digits ++ List.replicate zeros '0', some ['0'], none⟩ := by
  have hnonneg : 0 ≤ d.place := by omega
  refine ⟨⟨?_, ?_, ?_, ?_⟩, ?_, rfl, .inl (by simp), ?_, ?_⟩
  · simp [digits_ne_nil]
  · intro c hc
    exact (List.mem_append.1 hc).elim (d.isDigit_digits c) (forall_isDigit_zeros zeros c)
  · intro hhead
    obtain ⟨c, ds, hdigits⟩ := List.exists_cons_of_ne_nil d.digits_ne_nil
    have hfirst := Text.head_ofNat hd
    rw [show Text.ofNat d.significand = c :: ds from hdigits] at hfirst
    rw [hdigits] at hhead
    exact absurd hhead hfirst
  · simp
  · have hpositional : d.positional = d.digits ++ List.replicate zeros '0' := by
      rw [positional, hplace]
    rw [jsonText_of_inPlaces hplaces hnonneg, hpositional, NumeralText.text]
    simp
  · have hdigits : NumeralText.digits ⟨negative, d.digits ++ List.replicate zeros '0', some ['0'],
        none⟩ = d.digits ++ List.replicate (zeros + 1) '0' := by
      rw [NumeralText.digits, List.replicate_succ', List.append_assoc]
      rfl
    rw [hdigits, Text.natOfDigits_append, natOfDigits_digits, Text.appendDigits_zeros,
      writtenDigits, if_pos ⟨hplaces, hnonneg⟩, hplace]
    rfl
  · rw [writtenPlace, if_pos ⟨hplaces, hnonneg⟩]
    rfl

/-- A number in its places with a point among its digits. -/
theorem parts_pointed (negative : Bool) (hd : 0 < d.significand) (hplaces : d.InPlaces) {n : Nat}
    (hplace : d.place = .negSucc n) (hn : n + 1 < d.digits.length) :
    Parts negative d ⟨negative, d.digits.take (d.digits.length - (n + 1)),
      some (d.digits.drop (d.digits.length - (n + 1))), none⟩ := by
  have hneg : ¬ 0 ≤ d.place := by omega
  refine ⟨⟨?_, ?_, ?_, ?_⟩, ?_, rfl, .inl (by simp), ?_, ?_⟩
  · intro hnil
    have := List.length_eq_zero_iff.2 hnil
    rw [List.length_take] at this
    omega
  · exact fun c hc => d.isDigit_digits c (List.mem_of_mem_take hc)
  · intro hhead
    rw [List.head?_take, if_neg (by omega)] at hhead
    exact absurd hhead (Text.head_ofNat hd)
  · simp only [Option.mem_some_iff, forall_eq']
    refine ⟨fun hnil => ?_, fun c hc => d.isDigit_digits c (List.mem_of_mem_drop hc)⟩
    have := List.drop_eq_nil_iff.1 hnil
    omega
  · have hpositional : d.positional = d.digits.take (d.digits.length - (n + 1)) ++
        '.' :: d.digits.drop (d.digits.length - (n + 1)) := by
      rw [positional, hplace]
      exact if_pos hn
    rw [jsonText_of_place_neg hplaces hneg, hpositional, NumeralText.text]
    simp
  · rw [NumeralText.digits, Option.getD_some, List.take_append_drop, natOfDigits_digits,
      writtenDigits, if_neg fun h => hneg h.2]
  · rw [writtenPlace, if_neg fun h => hneg h.2, hplace]
    simp only [Option.getD_none, Option.getD_some, List.length_drop]
    omega

/-- A number in its places that is less than one. -/
theorem parts_small (negative : Bool) (hplaces : d.InPlaces) {n : Nat}
    (hplace : d.place = .negSucc n) (hn : ¬ n + 1 < d.digits.length) :
    Parts negative d ⟨negative, ['0'],
      some (List.replicate (n + 1 - d.digits.length) '0' ++ d.digits), none⟩ := by
  have hneg : ¬ 0 ≤ d.place := by omega
  refine ⟨⟨?_, ?_, ?_, ?_⟩, ?_, rfl, .inl (by simp), ?_, ?_⟩
  · simp
  · simp
  · simp
  · simp only [Option.mem_some_iff, forall_eq']
    refine ⟨by simp [digits_ne_nil], fun c hc => ?_⟩
    exact (List.mem_append.1 hc).elim (forall_isDigit_zeros _ c) (d.isDigit_digits c)
  · have hpositional : d.positional =
        '0' :: '.' :: List.replicate (n + 1 - d.digits.length) '0' ++ d.digits := by
      rw [positional, hplace]
      exact if_neg hn
    rw [jsonText_of_place_neg hplaces hneg, hpositional, NumeralText.text]
    simp
  · have hdigits : NumeralText.digits ⟨negative, ['0'],
        some (List.replicate (n + 1 - d.digits.length) '0' ++ d.digits), none⟩ =
        List.replicate (n + 1 - d.digits.length + 1) '0' ++ d.digits := rfl
    rw [hdigits, Text.natOfDigits_zeros_append, natOfDigits_digits, writtenDigits,
      if_neg fun h => hneg h.2]
  · rw [writtenPlace, if_neg fun h => hneg h.2, hplace]
    simp only [Option.getD_none, Option.getD_some, List.length_append, List.length_replicate]
    omega

/-- A number with one digit before the point and a power of ten. -/
theorem parts_scientific (negative : Bool) (hplaces : ¬ d.InPlaces) {c : Char} {ds : Text}
    (hdigits : d.digits = c :: ds) :
    Parts negative d ⟨negative, [c], if ds = [] then none else some ds, some d.leadingPlace⟩ := by
  refine ⟨⟨?_, ?_, ?_, ?_⟩, ?_, rfl, .inr (by simp), ?_, ?_⟩
  · simp
  · exact fun c' hc' => d.isDigit_digits c' (by rw [hdigits]; simp_all)
  · simp
  · intro ds' hds'
    split at hds'
    · contradiction
    · next hne =>
      obtain rfl := Option.some.inj hds'
      exact ⟨hne, fun c' hc' => d.isDigit_digits c' (by rw [hdigits]; simp [hc'])⟩
  · have hscientific : d.scientific = c :: ((if ds = [] then [] else '.' :: ds) ++
        Json.powerText d.leadingPlace) := by
      rw [scientific, hdigits]
      cases ds <;> rfl
    rw [jsonText, if_neg hplaces, hscientific, NumeralText.text]
    by_cases hds : ds = [] <;> simp [hds]
  · have hall : NumeralText.digits ⟨negative, [c], if ds = [] then none else some ds,
        some d.leadingPlace⟩ = d.digits := by
      rw [NumeralText.digits, hdigits]
      by_cases hds : ds = [] <;> simp [hds]
    rw [hall, natOfDigits_digits, writtenDigits, if_neg fun h => hplaces h.1]
  · have hlength : ((if ds = [] then none else some ds).getD []).length = ds.length := by
      by_cases hds : ds = [] <;> simp [hds]
    dsimp only
    rw [hlength, writtenPlace, if_neg fun h => hplaces h.1, Option.getD_some, leadingPlace, hdigits,
      List.length_cons]
    omega

/-- A written decimal is a number in the one form or the other. -/
theorem exists_parts (negative : Bool) (hd : 0 < d.significand) : ∃ t, Parts negative d t := by
  by_cases hplaces : d.InPlaces
  · cases hplace : d.place with
    | ofNat zeros => exact ⟨_, parts_whole negative hd hplaces hplace⟩
    | negSucc n =>
      by_cases hn : n + 1 < d.digits.length
      · exact ⟨_, parts_pointed negative hd hplaces hplace hn⟩
      · exact ⟨_, parts_small negative hplaces hplace hn⟩
  · obtain ⟨c, ds, hdigits⟩ := List.exists_cons_of_ne_nil d.digits_ne_nil
    exact ⟨_, parts_scientific negative hplaces hdigits⟩

/-! ## Their value -/

theorem toRat_written (d : Decimal) : d.writtenDigits * 10 ^ d.writtenPlace = d.toRat := by
  rw [writtenDigits, writtenPlace, toRat]
  split
  · next h =>
    obtain ⟨zeros, hzeros⟩ := Int.eq_ofNat_of_zero_le h.2
    rw [hzeros, Int.toNat_natCast, zpow_neg_one, zpow_natCast]
    push_cast
    rw [pow_succ]
    field_simp
  · rfl

theorem writtenDigits_pos (hd : 0 < d.significand) : 0 < d.writtenDigits := by
  rw [writtenDigits]
  split
  · exact Nat.mul_pos hd (Nat.pow_pos (by decide))
  · exact hd

/-- The written digits of a shortest decimal fit into 64 bits. -/
theorem writtenDigits_le (hd : d.significand ≤ 10 ^ 17) : d.writtenDigits ≤ Numeral.maxWord := by
  rw [writtenDigits]
  split
  · next h =>
    obtain ⟨⟨-, hplaces⟩, hplace⟩ := h
    obtain ⟨zeros, hzeros⟩ := Int.eq_ofNat_of_zero_le hplace
    rw [leadingPlace, hzeros] at hplaces
    rw [hzeros, Int.toNat_natCast]
    calc d.significand * 10 ^ (zeros + 1)
        ≤ 10 ^ d.digits.length * 10 ^ (zeros + 1) :=
          Nat.mul_le_mul_right _ (Text.lt_pow_length_ofNat d.significand).le
      _ = 10 ^ (d.digits.length + (zeros + 1)) := (Nat.pow_add ..).symm
      _ ≤ 10 ^ 17 := Nat.pow_le_pow_right (by decide) (by omega)
      _ ≤ Numeral.maxWord := by decide
  · exact hd.trans (by decide)

end Decimal

end LegacyGradient
