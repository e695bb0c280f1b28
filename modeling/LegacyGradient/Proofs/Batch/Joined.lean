/-
  LegacyGradient.Proofs.Batch.Joined

  Values that are lists of gradients. The cutting of a value counts parentheses and knows nothing
  of the grammar of gradients; but no gradient has a comma outside of its parentheses, so a value
  made of gradients is cut into just these, and converted like them (`ofText_join`).
-/
import LegacyGradient.Proofs.Batch.Collected
import LegacyGradient.Proofs.Batch.Segments
import LegacyGradient.Proofs.Convert.Fault
import LegacyGradient.Proofs.Gradient.Enclosed

namespace LegacyGradient

variable {options : Options} {es legacies : List Text} {t : Text}

/-- The blanks around a gradient make no difference to its conversion. -/
theorem convert_trim (h : ∃ o, Outline.ofText t = .ok o) : convert options t.trim = convert options t := by
  obtain ⟨o, ho⟩ := h
  obtain ⟨w, hw, rfl⟩ := WrittenGradient.exists_text_eq ho
  rw [w.trim_text, convert_text hw, convert_text hw.bare]
  rfl

namespace Batch

/-- Gradients that are joined with commas are the segments of the whole. -/
theorem segments_join_gradients (h : ∀ e ∈ es, ∃ o, Outline.ofText e = .ok o) :
    segments (Text.join [','] es) = es.map Text.trim := by
  have hwritten : ∀ e ∈ es, ∃ w : WrittenGradient, w.text = e := by
    intro e he
    obtain ⟨o, ho⟩ := h e he
    obtain ⟨w, -, hw⟩ := WrittenGradient.exists_text_eq ho
    exact ⟨w, hw⟩
  have hjoinable : Text.Joinable es := by
    apply Text.joinable_of_sealed
    intro e he
    obtain ⟨w, rfl⟩ := hwritten e he
    exact w.sealed_text
  rw [segments_join_comma hjoinable]
  apply filter_eq_self
  intro s hs
  obtain ⟨e, he, rfl⟩ := List.mem_map.1 hs
  obtain ⟨w, rfl⟩ := hwritten e he
  rw [w.trim_text]
  exact w.text_bare_ne_nil

/-- A value made of gradients is cut into these gradients, and if every one of them converts by
itself, the value converts to the list of the results, whatever is to be done with failures. -/
theorem ofText_join (h : ∀ e ∈ es, ∃ o, Outline.ofText e = .ok o) :
    segments (Text.join [','] es) = es.map Text.trim ∧
      ∀ (options : Options) (legacies : List Text),
        es.map (convert options) = legacies.map .ok → ∀ policy : Policy,
          ofText { options with policy := policy } (Text.join [','] es) =
            .ok { value := Text.join Text.commaBlank legacies, converted := es.length, failures := [] } := by
  have hsegments := segments_join_gradients h
  refine ⟨hsegments, fun options legacies hconvert policy => ?_⟩
  have hconverted : (segments (Text.join [','] es)).map (convert { options with policy := policy }) =
      legacies.map .ok := by
    rw [hsegments, List.map_map, ← hconvert]
    apply List.map_congr_left
    intro e he
    exact convert_trim (h e he)
  have hcollected := collected_of_converted hconverted
  rw [hsegments, List.length_map] at hcollected
  rw [ofText_eq_ok_iff, hcollected]
  exact ⟨fun _ => rfl, rfl⟩

/-- Commas between the parentheses of a color, and blanks around the second gradient. -/
theorem ofText_join_two :
    segments "linear-gradient(left,rgb(1, 2 3),lime), linear-gradient(#fff 10%,red)\n".toList =
        ["linear-gradient(left,rgb(1, 2 3),lime)".toList, "linear-gradient(#fff 10%,red)".toList] ∧
      ofText { policy := .skip }
          "linear-gradient(left,rgb(1, 2 3),lime), linear-gradient(#fff 10%,red)\n".toList =
        .ok {
          value := ("-webkit-gradient(linear, 0 0, 100% 0, from(rgb(1, 2 3)), to(lime)), " ++
            "-webkit-gradient(linear, 0 0, 0 100%, color-stop(0.1, #fff), to(red))").toList
          converted := 2
          failures := [] } := by
  -- the literals are opened before anything is computed, since it takes long to decode them
  have h : ∀ e ∈ ["linear-gradient(left,rgb(1, 2 3),lime)".toList,
      " linear-gradient(#fff 10%,red)\n".toList], ∃ o, Outline.ofText e = .ok o := by
    intro e he
    simp only [List.mem_cons, List.not_mem_nil, or_false] at he
    rcases he with rfl | rfl
    · refine ⟨⟨.keywords [.left], "rgb(1, 2 3),lime".toList⟩, Outline.ofText_eq_ok_iff.2 ?_⟩
      rw [String.toList_ofList, String.toList_ofList]
      decide +kernel
    · refine ⟨⟨.default, "#fff 10%,red".toList⟩, Outline.ofText_eq_ok_iff.2 ?_⟩
      rw [String.toList_ofList, String.toList_ofList]
      decide +kernel
  have hfirst : convert {} "linear-gradient(left,rgb(1, 2 3),lime)".toList =
      .ok "-webkit-gradient(linear, 0 0, 100% 0, from(rgb(1, 2 3)), to(lime))".toList := by
    rw [String.toList_ofList, String.toList_ofList]
    exact Placement.eq_ok_of_toOption (by decide +kernel)
  have hsecond : convert {} " linear-gradient(#fff 10%,red)\n".toList =
      .ok "-webkit-gradient(linear, 0 0, 0 100%, color-stop(0.1, #fff), to(red))".toList := by
    rw [String.toList_ofList, String.toList_ofList]
    exact Placement.eq_ok_of_toOption (by decide +kernel)
  have hjoin : "linear-gradient(left,rgb(1, 2 3),lime), linear-gradient(#fff 10%,red)\n".toList =
      Text.join [','] ["linear-gradient(left,rgb(1, 2 3),lime)".toList,
        " linear-gradient(#fff 10%,red)\n".toList] := by
    rw [String.toList_ofList, String.toList_ofList, String.toList_ofList]
    rfl
  rw [hjoin]
  obtain ⟨hsegments, hbatch⟩ := ofText_join h
  constructor
  · rw [hsegments]
    rw [String.toList_ofList, String.toList_ofList, String.toList_ofList]
    decide +kernel
  · rw [hbatch {} ["-webkit-gradient(linear, 0 0, 100% 0, from(rgb(1, 2 3)), to(lime))".toList,
      "-webkit-gradient(linear, 0 0, 0 100%, color-stop(0.1, #fff), to(red))".toList]
        (by rw [List.map_cons, List.map_cons, hfirst, hsecond]; rfl) .skip]
    rw [String.toList_append, String.toList_ofList, String.toList_ofList, String.toList_ofList]
    rfl

end Batch

end LegacyGradient
