/-
  LegacyGradient.Proofs.Gradient.Enclosed

  Written gradients as parts of a longer text. All commas of a gradient stand between its own
  parentheses (`sealed_text`), and trimming it takes away the blanks around it, which leaves the same
  gradient (`trim_text`).
-/
import LegacyGradient.Proofs.Gradient.Stops
import LegacyGradient.Proofs.Token.Direction

namespace LegacyGradient

theorem WrittenDirection.sealed_text (d : WrittenDirection) : Text.SealedFrom 1 d.text := by
  have htoken := (Direction.scan_sealed d.scan).append d.beforeComma.sealed
  have hcomma := Text.sealedFrom_comma.append (d.afterComma.sealed.mono (Nat.zero_le 1))
  exact (htoken.mono (Nat.zero_le 1)).append hcomma

namespace WrittenGradient

variable {w : WrittenGradient}

/-- What stands between the parentheses of a gradient. -/
def inner (w : WrittenGradient) : Text :=
  w.afterOpening.text ++ w.direction?.elim [] WrittenDirection.text ++
    Text.join [','] (w.items.map WrittenStop.text)

/-- The gradient without the blanks around it. -/
def bare (w : WrittenGradient) : WrittenGradient := { w with before := .none, after := .none }

theorem Clear.bare (h : w.Clear) : w.bare.Clear := ⟨h.apart, h.firstIsStop⟩

theorem text_bare (w : WrittenGradient) :
    w.bare.text = "linear-gradient".toList ++ ('(' :: (w.inner ++ [')'])) := by
  simp [text, inner, WrittenGradient.bare, Gap.none, items]

theorem text_eq (w : WrittenGradient) : w.text = w.before.text ++ w.bare.text ++ w.after.text := by
  simp [text, WrittenGradient.bare, Gap.none, items]

theorem sealed_inner (w : WrittenGradient) : Text.SealedFrom 1 w.inner := by
  have hdirection : Text.SealedFrom 1 (w.direction?.elim [] WrittenDirection.text) := by
    cases w.direction? with
    | none => exact Text.sealedFrom_nil
    | some d => exact d.sealed_text
  have hitems : Text.SealedFrom 1 (Text.join [','] (w.items.map WrittenStop.text)) := by
    apply Text.sealedFrom_join Text.sealedFrom_comma
    intro t ht
    obtain ⟨s, -, rfl⟩ := List.mem_map.1 ht
    exact s.sealed_text.mono (Nat.zero_le 1)
  exact ((w.afterOpening.sealed.mono (Nat.zero_le 1)).append hdirection).append hitems

/-- A gradient may stand anywhere in a list with commas. -/
theorem sealed_text (w : WrittenGradient) : Text.SealedFrom 0 w.text := by
  have hname : Text.SealedFrom 0 "linear-gradient".toList := Text.sealedFrom_of_all (by decide)
  rw [text_eq, text_bare]
  exact (w.before.sealed.append (hname.append w.sealed_inner.parens)).append w.after.sealed

theorem text_bare_ne_nil (w : WrittenGradient) : w.bare.text ≠ [] := by
  rw [text_bare]
  exact List.append_ne_nil_of_left_ne_nil (by decide) _

/-- The blanks around a gradient are all that trimming finds. -/
theorem trim_text (w : WrittenGradient) : w.text.trim = w.bare.text := by
  have htrimmed : w.bare.text.Trimmed := by
    rw [text_bare]
    have := Text.Trimmed.between (s := "linear-gradient".toList) (t := [')']) (by decide)
      (Text.outside_cons.2 rfl) (by decide) (Text.outside_cons.2 rfl) ('(' :: w.inner)
    rwa [List.append_assoc] at this
  rw [text_eq, Text.trim_append w.before.isBlank w.after.isBlank htrimmed]

end WrittenGradient

end LegacyGradient
