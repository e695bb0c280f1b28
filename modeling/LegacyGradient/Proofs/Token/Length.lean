/-
  LegacyGradient.Proofs.Token.Length

  Lengths in a list of color stops, where a blank, a comma or the closing parenthesis follows them.
  No such character prolongs a length, so the scan of a length does not hang on what follows
  (`lexeme_append`).
-/
import LegacyGradient.Length
import LegacyGradient.Proofs.Text.Classes
import LegacyGradient.Proofs.Text.Cut
import LegacyGradient.Proofs.Text.Trim

namespace LegacyGradient.Length

open Number (isNumeric)
open Text (Outside)

variable {t v m rest : Text}

/-! ## Units -/

theorem units_free : ∀ w ∈ units, ∀ w' ∈ units, w <+: w' → w = w' := by decide

theorem units_over : ∀ w ∈ units, ∀ c ∈ w, (c.isLower || c == '%') = true := by
  have h : units.all (·.all fun c => c.isLower || c == '%') = true := by decide
  simpa only [List.all_eq_true] using h

theorem units_head : ∀ w ∈ units, ∃ c w', w = c :: w' ∧ isNumeric c = false := by
  intro w hw
  have : w ≠ [] ∧ Outside isNumeric w := by
    revert w
    decide
  obtain ⟨c, w', rfl⟩ := List.exists_cons_of_ne_nil this.1
  exact ⟨c, w', rfl, Text.outside_cons.1 this.2⟩

/-! ## Lengths -/

/-- The characters that may come right after a color stop. -/
def isStopEnd (c : Char) : Bool := Text.isGap c || c == ',' || c == ')'

/-- The characters of lengths. -/
def isLengthChar (c : Char) : Bool := isNumeric c || c.isLower || c == '%'

theorem lexeme_over : lexeme.Over isLengthChar := by
  have hnumber : Number.lexeme.Over isLengthChar := fun t m rest h c hc => by
    simp [isLengthChar, Number.lexeme_over t m rest h c hc]
  refine (hnumber.append (.oneOf fun w hw c hc => ?_)).orElse (.char rfl)
  have := units_over w hw c hc
  simp only [isLengthChar, Bool.or_assoc, this, Bool.or_true]

theorem lexeme_trimmed (h : lexeme t = some (m, rest)) : m.Trimmed := by
  refine Text.trimmed_of_forall fun c hc => ?_
  have := lexeme_over t m rest h c hc
  simp only [isLengthChar, Bool.or_eq_true, beq_iff_eq] at this
  rcases this with (h | h) | rfl
  · exact Text.isBlank_of_isNumeric h
  · exact Text.isBlank_of_isLower h
  · rfl

theorem lexeme_sealed (h : lexeme t = some (m, rest)) : Text.SealedFrom 0 m :=
  Text.sealedFrom_of_class rfl rfl rfl (lexeme_over t m rest h)

theorem lexeme_eq_none (h : Outside isNumeric t) : lexeme t = none := by
  refine Lexeme.orElse_eq_none_iff.2 ⟨Lexeme.append_eq_none_left (Number.lexeme_eq_none h), ?_⟩
  exact Lexeme.char_eq_none (h.mono (by simp +contextual [isNumeric]))

/-- A length is not empty, and its first character is one of a number. -/
theorem head_isNumeric (h : lexeme t = some (m, rest)) :
    ∃ c m', m = c :: m' ∧ isNumeric c = true := by
  rcases Lexeme.orElse_eq_some_iff.1 h with h | ⟨-, h⟩
  · obtain ⟨n, u, r, hn, -, rfl⟩ := Lexeme.append_eq_some_iff.1 h
    obtain ⟨c, n, rfl⟩ := List.exists_cons_of_ne_nil (Number.lexeme_ne_nil hn)
    exact ⟨c, n ++ u, rfl, Number.lexeme_over t _ r hn c (by simp)⟩
  · obtain ⟨rfl, -⟩ := Lexeme.char_eq_some_iff.1 h
    exact ⟨'0', [], rfl, rfl⟩

/-- A class of characters that do not end a stop is not met where a stop ends. -/
theorem outside_of_stopEnd {p : Char → Bool}
    (hp : [' ', '\t', '\n', '\r', ',', ')'].any p = false) (h : Outside (!isStopEnd ·) v) :
    Outside p v := by
  refine h.mono fun c hc => ?_
  rw [Bool.not_eq_true', Bool.eq_false_iff]
  intro hend
  have hmem : c ∈ [' ', '\t', '\n', '\r', ',', ')'] := by
    simpa [isStopEnd, Text.isGap, or_assoc] using hend
  rw [List.any_eq_true.2 ⟨c, hmem, hc⟩] at hp
  contradiction

/-- No unit begins with a character that ends a stop. -/
theorem oneOf_units_eq_none (h : Outside (!isStopEnd ·) v) : Lexeme.oneOf units v = none := by
  refine Lexeme.oneOf_eq_none fun w hw hwv => ?_
  obtain ⟨v', rfl⟩ := hwv
  have hhead : ∀ w ∈ units, w ≠ [] ∧ ¬ Outside (!isStopEnd ·) w := by
    decide
  exact (hhead w hw).2 ((Text.outside_append_of_ne_nil (hhead w hw).1).1 h)

/-- A length is found again in front of any text that begins with the end of a stop. -/
theorem lexeme_append (h : lexeme t = some (m, rest)) (hv : Outside (!isStopEnd ·) v) :
    lexeme (m ++ v) = some (m, v) := by
  rcases Lexeme.orElse_eq_some_iff.1 h with h | ⟨-, h⟩
  · obtain ⟨n, u, r, hn, hu, rfl⟩ := Lexeme.append_eq_some_iff.1 h
    obtain ⟨hmem, rfl⟩ := Lexeme.mem_of_oneOf hu
    -- the unit begins with a character at which the number halts
    obtain ⟨c, u', rfl, hc⟩ := units_head u hmem
    have hn' := (Number.lexeme_haltsAt hc).scan hn (u' ++ v)
    rw [List.append_assoc]
    exact Lexeme.orElse_eq_some_iff.2
      (.inl (Lexeme.append_scan hn' (Lexeme.oneOf_append units_free hmem v)))
  · obtain ⟨rfl, -⟩ := Lexeme.char_eq_some_iff.1 h
    refine Lexeme.orElse_eq_some_iff.2 (.inr ⟨?_, Lexeme.char_cons_self⟩)
    exact Lexeme.append_eq_none_right (Number.lexeme_zero (outside_of_stopEnd (by decide) hv))
      (oneOf_units_eq_none hv)

end LegacyGradient.Length
