/-
  LegacyGradient.Proofs.Batch.KeepSource

  Batches that keep what does not convert. Every segment of a value is represented in the new value
  by one segment, its older form or itself, even if it leaves parentheses open; and since the older
  form is no gradient, to convert the new value once more changes nothing (`ofText_keepSource`).
-/
import LegacyGradient.Proofs.Batch.Collected
import LegacyGradient.Proofs.Batch.Segments
import LegacyGradient.Proofs.Convert.Form
import LegacyGradient.Proofs.Gradient.Enclosed

namespace LegacyGradient

variable {options : Options} {t legacy s : Text} {e : ConversionError} {ss : List Text}

/-! ## The older form is no gradient -/

/-- A gradient begins with the name of its function, and the older form with another one. -/
theorem Legacy.write_ne_text (corners : Corners) (placed : List PlacedStop) (w : WrittenGradient) :
    write corners placed ≠ w.text := by
  intro h
  have hbare : (write corners placed).trim = w.bare.text := by rw [h, w.trim_text]
  rw [trimmed_write.trim_eq, w.text_bare] at hbare
  have hhead : (write corners placed).head? = some 'l' := by
    rw [hbare]
    rfl
  rw [head?_write] at hhead
  exact absurd hhead (by decide)

theorem refused_of_convert (h : convert options t = .ok legacy) :
    convert options legacy = .error (.notRecognized legacy) := by
  obtain ⟨-, corners, placed, -, -, -, -, -, rfl⟩ := convert_eq_ok_iff.1 h
  rcases refused_or_written (Legacy.write corners placed) with hrefused | ⟨w, -, hw⟩
  · exact convert_eq_of_refused hrefused
  · exact absurd hw.symm (Legacy.write_ne_text corners placed w)

theorem sealed_of_convert (h : convert options t = .ok legacy) : Text.SealedFrom 0 legacy := by
  obtain ⟨w, corners, placed, -, -, -, -, hplaced, rfl⟩ := convert_eq_ok_iff.1 h
  exact Legacy.sealed_write (w.sealed_color hplaced)

theorem trimmed_of_convert (h : convert options t = .ok legacy) : legacy.Trimmed ∧ legacy ≠ [] := by
  obtain ⟨-, corners, placed, -, -, -, -, -, rfl⟩ := convert_eq_ok_iff.1 h
  refine ⟨Legacy.trimmed_write, fun hnil => ?_⟩
  have hhead : (Legacy.write corners placed).head? = some '-' := Legacy.head?_write
  rw [hnil] at hhead
  contradiction

namespace Batch

/-! ## The segments of the new value -/

/-- Nothing that stands for a segment converts. -/
theorem exists_error_kept (options : Options) (s : Text) :
    ∃ e, convert options (kept options s) = .error e := by
  cases hconvert : convert options s with
  | ok legacy =>
    rw [kept_of_ok hconvert]
    exact ⟨_, refused_of_convert hconvert⟩
  | error e =>
    rw [kept_of_error hconvert]
    exact ⟨e, hconvert⟩

theorem kept_kept (options : Options) (s : Text) :
    kept options (kept options s) = kept options s := by
  obtain ⟨e, he⟩ := exists_error_kept options s
  exact kept_of_error he

/-- What stands for the segments of a value is again a list of segments. -/
theorem Segmented.map_kept (h : Segmented ss) (options : Options) :
    Segmented (ss.map (kept options)) where
  trimmed s' hs' := by
    obtain ⟨s, hs, rfl⟩ := List.mem_map.1 hs'
    cases hconvert : convert options s with
    | ok legacy => rw [kept_of_ok hconvert]; exact (trimmed_of_convert hconvert).1
    | error e => rw [kept_of_error hconvert]; exact h.trimmed s hs
  ne_nil s' hs' := by
    obtain ⟨s, hs, rfl⟩ := List.mem_map.1 hs'
    cases hconvert : convert options s with
    | ok legacy => rw [kept_of_ok hconvert]; exact (trimmed_of_convert hconvert).2
    | error e => rw [kept_of_error hconvert]; exact h.ne_nil s hs
  joinable := by
    apply h.joinable.map
    intro s _ huncut
    cases hconvert : convert options s with
    | ok legacy =>
      obtain ⟨hlegacy, hafter⟩ := sealed_of_convert hconvert 0 (Nat.le_refl 0)
      rw [kept_of_ok hconvert]
      exact ⟨hlegacy, fun _ => hafter⟩
    | error e =>
      rw [kept_of_error hconvert]
      exact ⟨huncut, id⟩

/-- With what fails kept, a value converts to one with a segment for each of its segments, and this
one converts to itself: nothing in it is converted, and every segment fails. -/
theorem ofText_keepSource (options : Options) (value : Text) :
    ∃ out, ofText { options with policy := .keepSource } value = .ok out ∧
      segments out.value = (segments value).map (kept options) ∧
      ∃ again, ofText { options with policy := .keepSource } out.value = .ok again ∧
        again.value = out.value ∧ again.converted = 0 ∧
        again.failures.map (fun f => (f.segment, f.index)) = (segments out.value).zipIdx := by
  let keeping : Options := { options with policy := .keepSource }
  have hok : ∀ v, ofText keeping v = .ok (collected keeping v) := by
    intro v
    exact ofText_eq_ok_iff.2 ⟨fun habort => by contradiction, rfl⟩
  have hvalue : ∀ v, (collected keeping v).value =
      Text.join Text.commaBlank ((segments v).map (kept options)) := by
    intro v
    rw [collected, filterMap_part?_keepSource rfl]
    rfl
  have hsegments : segments (collected keeping value).value = (segments value).map (kept options) := by
    rw [hvalue]
    exact ((segmented_segments value).map_kept options).segments_join
  have hrefused : ∀ s ∈ segments (collected keeping value).value,
      ∃ e, convert keeping s = .error e := by
    rw [hsegments]
    intro s' hs'
    obtain ⟨s, -, rfl⟩ := List.mem_map.1 hs'
    exact exists_error_kept options s
  obtain ⟨hconverted, hfailures⟩ := collected_of_refused hrefused
  refine ⟨_, hok value, hsegments, _, hok _, ?_, hconverted, hfailures⟩
  have hkept : (segments value).map (kept options ∘ kept options) =
      (segments value).map (kept options) :=
    List.map_congr_left fun s _ => kept_kept options s
  rw [hvalue, hsegments, List.map_map, hkept, hvalue]

end Batch

end LegacyGradient
