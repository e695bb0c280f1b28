/-
  LegacyGradient.Proofs.Command.Report

  Reports are single lines. A JSON string escapes every character below the space, so written JSON
  has no such character at all, whatever its strings are (`Json.unbroken_objectText`); nor has the
  report on a value (`Batch.unbroken_report`).
-/
import LegacyGradient.Command.Report
import LegacyGradient.Proofs.Batch.Characters

namespace LegacyGradient

variable {t : Text} {ts : List Text} {c : Char} {n : Nat}

/-! ## Texts without control characters -/

/-- No character of a text lies below the space. -/
def Text.Unbroken (t : Text) : Prop := ∀ c ∈ t, ' ' ≤ c

namespace Text

theorem unbroken_of_all (h : t.all (' ' ≤ ·) = true) : t.Unbroken :=
  fun c hc => of_decide_eq_true (List.all_eq_true.1 h c hc)

theorem Unbroken.append {u : Text} (ht : t.Unbroken) (hu : u.Unbroken) : (t ++ u).Unbroken :=
  List.forall_mem_append.2 ⟨ht, hu⟩

theorem Unbroken.join {separator : Text} (hseparator : separator.Unbroken)
    (h : ∀ t ∈ ts, t.Unbroken) : (join separator ts).Unbroken := by
  intro c hc
  rcases mem_join hc with hc | ⟨t, ht, hc⟩
  · exact hseparator c hc
  · exact h t ht c hc

theorem unbroken_ofNat (n : Nat) : (ofNat n).Unbroken := by
  intro c hc
  have hplain := isPlain_of_isDigit (isDigit_of_mem_ofNat hc)
  rw [isPlain, Bool.and_eq_true] at hplain
  exact of_decide_eq_true hplain.1

theorem Unbroken.not_mem_newline (h : t.Unbroken) : '\n' ∉ t :=
  fun hmem => absurd (h '\n' hmem) (by decide)

end Text

/-! ## Written JSON -/

namespace Json

/-- What is written for a character has no control characters, even if it is one. -/
theorem unbroken_stringChar (c : Char) : (stringChar c).Unbroken := by
  have hdigit : ∀ n < 16, ' ' ≤ Nat.digitChar n := by decide
  rw [stringChar]
  -- the escapes of one letter
  iterate 7
    split
    · exact Text.unbroken_of_all (by decide)
  split
  · next hlow =>
    have hfixed : Text.Unbroken ['\\', 'u', '0', '0'] := Text.unbroken_of_all (by decide)
    have hlt : c.toNat < 32 := hlow
    apply hfixed.append
    simp only [Text.Unbroken, List.forall_mem_cons]
    exact ⟨hdigit _ (by omega), hdigit _ (by omega), by simp⟩
  · next hhigh => exact List.forall_mem_singleton.2 (Char.not_lt.1 hhigh)

theorem unbroken_stringText (t : Text) : (stringText t).Unbroken := by
  have hchars : Text.Unbroken (t.flatMap stringChar) := by
    intro c hc
    obtain ⟨d, -, hc⟩ := List.mem_flatMap.1 hc
    exact unbroken_stringChar d c hc
  exact ((Text.unbroken_of_all (by decide)).append hchars).append (Text.unbroken_of_all (by decide))

theorem unbroken_arrayText (h : ∀ t ∈ ts, t.Unbroken) : (arrayText ts).Unbroken :=
  ((Text.unbroken_of_all (by decide)).append
    (Text.Unbroken.join (Text.unbroken_of_all (by decide)) h)).append
      (Text.unbroken_of_all (by decide))

/-- An object has no control characters if the texts of its values have none; its names may be any
texts. -/
theorem unbroken_objectText {members : List (Text × Text)} (h : ∀ m ∈ members, m.2.Unbroken) :
    (objectText members).Unbroken := by
  refine ((Text.unbroken_of_all (by decide)).append (Text.Unbroken.join
    (Text.unbroken_of_all (by decide)) fun t ht => ?_)).append (Text.unbroken_of_all (by decide))
  obtain ⟨⟨name, value⟩, hmem, rfl⟩ := List.mem_map.1 ht
  exact (unbroken_stringText name).append (List.forall_mem_cons.2 ⟨by decide, h _ hmem⟩)

end Json

/-! ## Reports -/

theorem Failure.unbroken_json (f : Failure) : f.json.Unbroken := by
  apply Json.unbroken_objectText
  simp only [List.forall_mem_cons]
  exact ⟨Text.unbroken_ofNat _, Json.unbroken_stringText _, Json.unbroken_stringText _,
    Json.unbroken_stringText _, by simp⟩

/-- A report has no control characters, whatever the value is that it is about. -/
theorem Batch.unbroken_report (input : Text) (b : Batch) : (b.report input).Unbroken := by
  have hfailures : ∀ t ∈ b.failures.map Failure.json, t.Unbroken := by
    intro t ht
    obtain ⟨f, -, rfl⟩ := List.mem_map.1 ht
    exact f.unbroken_json
  apply Json.unbroken_objectText
  simp only [List.forall_mem_cons]
  exact ⟨Text.unbroken_ofNat _, Json.unbroken_arrayText hfailures, Json.unbroken_stringText _,
    Json.unbroken_stringText _, by simp⟩

end LegacyGradient
