/-
  LegacyGradient.Proofs.Convert.Form

  What a conversion writes. It is a call of the older form with one stop for each stop of the
  gradient, in the color that was written there, along a line between two points that differ. The
  offsets are numbers unless a percentage has so many digits that it is read as infinite
  (`convert_form`).
-/
import LegacyGradient.Proofs.Convert.Fault
import LegacyGradient.Proofs.Legacy.Form
import LegacyGradient.Proofs.Placement.Overflow
import LegacyGradient.Proofs.Token.Direction

namespace LegacyGradient

open Legacy (HasForm)

variable {options : Options} {t legacy : Text} {sides : List Side} {corners : Corners}
  {placed : List PlacedStop} {w : WrittenGradient}

/-! ## The line -/

/-- A line that starts from an edge leads away from it. -/
theorem Corners.start_ne_finish_ofSides (h : sides ≠ []) :
    (ofSides sides).start ≠ (ofSides sides).finish := by
  intro heq
  obtain ⟨hx, hy⟩ := Point.mk.inj heq
  by_cases hleft : Side.left ∈ sides
  · simp [hleft] at hx
  · by_cases hright : Side.right ∈ sides
    · simp [hleft, hright] at hx
    · by_cases htop : Side.top ∈ sides
      · simp [htop] at hy
      · by_cases hbottom : Side.bottom ∈ sides
        · simp [htop, hbottom] at hy
        · -- there is no other edge
          apply h
          apply List.eq_nil_iff_forall_not_mem.2
          intro side
          cases side <;> assumption

theorem WrittenGradient.sides_ne_nil (h : w.direction = .keywords sides) : sides ≠ [] := by
  rw [WrittenGradient.direction] at h
  cases hdirection : w.direction? with
  | none =>
    rw [hdirection] at h
    obtain rfl := Direction.keywords.inj h
    exact List.cons_ne_nil _ _
  | some d =>
    have hscan := d.scan
    rw [hdirection] at h
    rw [show d.value = .keywords sides from h] at hscan
    exact Direction.sides_ne_nil hscan

theorem WrittenGradient.start_ne_finish (h : Corners.ofDirection w.direction = .ok corners) :
    corners.start ≠ corners.finish := by
  cases hdirection : w.direction with
  | keywords sides =>
    rw [hdirection] at h
    obtain rfl := Except.ok.inj h
    exact Corners.start_ne_finish_ofSides (w.sides_ne_nil hdirection)
  | angle degrees =>
    rw [hdirection, Corners.ofDirection] at h
    split at h
    · obtain rfl := Except.ok.inj h
      exact Corners.start_ne_finish_ofSides (List.cons_ne_nil _ _)
    · contradiction

/-! ## The stops -/

/-- The colors of the placed stops are those of the gradient. -/
theorem WrittenGradient.sealed_color (hplaced : Placement.place w.stops = .ok placed) :
    ∀ p ∈ placed, Text.SealedFrom 0 p.color := by
  intro p hp
  have hstop : p.toStop ∈ w.stops := by
    rw [← Placement.map_toStop_of_place hplaced]
    exact List.mem_map_of_mem hp
  obtain ⟨s, -, hs⟩ := List.mem_map.1 hstop
  show Text.SealedFrom 0 p.toStop.color
  rw [← hs]
  exact Color.lexeme_sealed s.color_scan

theorem WrittenGradient.map_color_placed (hplaced : Placement.place w.stops = .ok placed) :
    w.stops.map (·.color) = placed.map (·.color) := by
  rw [← Placement.map_toStop_of_place hplaced, List.map_map]
  rfl

theorem WrittenGradient.placed_ne_nil (hplaced : Placement.place w.stops = .ok placed) :
    placed ≠ [] := by
  rintro rfl
  have := Placement.map_toStop_of_place hplaced
  simp [WrittenGradient.stops, WrittenGradient.items] at this

/-! ## Conversions -/

/-- A conversion writes a call of the older form with the colors of the gradient, in order. Its
offsets are numbers exactly if no percentage is read as the positive infinity, and that of the first
stop not as the negative infinity. The number of stops is bounded for the sake of the rounding errors;
more stops than that do not fit in any memory. -/
theorem convert_form (h : convert options t = .ok legacy) :
    ∃ w : WrittenGradient, w.Clear ∧ w.text = t ∧
      HasForm (fun p => ∃ x : Binary64, p = x.display) (w.stops.map (·.color)) legacy ∧
      (w.stops.length ≤ 2 ^ 50 →
        (HasForm (fun p => Number.lexeme p = some (p, [])) (w.stops.map (·.color)) legacy ↔
          (∀ stop ∈ w.stops, ¬ stop.Overflows false) ∧
            ∀ stop ∈ w.stops.head?, ¬ stop.Overflows true)) := by
  obtain ⟨w, corners, placed, hclear, htext, -, hcorners, hplaced, rfl⟩ := convert_eq_ok_iff.1 h
  have hne := w.placed_ne_nil hplaced
  have hpoints := w.start_ne_finish hcorners
  have hcolors := w.sealed_color hplaced
  refine ⟨w, hclear, htext, ?_, fun hlength => ?_⟩
  · rw [w.map_color_placed hplaced]
    exact Legacy.hasForm_display hne hpoints hcolors
  · rw [w.map_color_placed hplaced, Legacy.hasForm_number_iff hne hpoints hcolors,
      Placement.offsets_finite_iff hlength hplaced]

/-- A percentage that is not whole, and a last stop without one. -/
theorem convert_form_two_stops :
    HasForm (fun p => Number.lexeme p = some (p, [])) ["#fff".toList, "blue".toList]
      "-webkit-gradient(linear, 0 0, 100% 0, color-stop(0.125, #fff), to(blue))".toList := by
  have hconvert : convert {} "linear-gradient(left, #fff 12.5%, blue)".toList =
      .ok "-webkit-gradient(linear, 0 0, 100% 0, color-stop(0.125, #fff), to(blue))".toList := by
    rw [String.toList_ofList, String.toList_ofList]
    exact Placement.eq_ok_of_toOption (by decide +kernel)
  obtain ⟨w, hclear, htext, -, hform⟩ := convert_form hconvert
  have hstops : w.stops = [⟨"#fff".toList, some "12.5%".toList⟩, ⟨"blue".toList, none⟩] := by
    have hread : (Gradient.ofText "linear-gradient(left, #fff 12.5%, blue)".toList).toOption.map
        (·.stops) = some [⟨"#fff".toList, some "12.5%".toList⟩, ⟨"blue".toList, none⟩] := by
      rw [String.toList_ofList, String.toList_ofList, String.toList_ofList, String.toList_ofList]
      decide +kernel
    rw [← htext, w.ofText_of_clear hclear] at hread
    exact Option.some.inj hread
  rw [hstops] at hform
  refine (hform (by decide)).2 ⟨?_, ?_⟩
  · simp only [List.forall_mem_cons, Stop.Overflows, Option.mem_some_iff, exists_eq_left']
    decide +kernel
  · simp only [List.head?_cons, Option.mem_some_iff, forall_eq', Stop.Overflows, exists_eq_left']
    decide +kernel

/-- A percentage of 311 digits is read as infinite and written so, although its hundredth part would
be a number. -/
theorem overflow_written :
    ∃ (gradient : Gradient) (legacy : Text),
      Gradient.ofText ("linear-gradient(red, blue 1".toList ++ List.replicate 310 '0' ++
        "%)".toList) = .ok gradient ∧
      convert {} ("linear-gradient(red, blue 1".toList ++ List.replicate 310 '0' ++ "%)".toList) =
        .ok legacy ∧
      ¬ HasForm (fun p => Number.lexeme p = some (p, [])) (gradient.stops.map (·.color)) legacy := by
  let t : Text := "linear-gradient(red, blue 1".toList ++ List.replicate 310 '0' ++ "%)".toList
  let position : Text := '1' :: (List.replicate 310 '0' ++ ['%'])
  let red : Stop := ⟨"red".toList, none⟩
  let blue : Stop := ⟨"blue".toList, some position⟩
  let placed : List PlacedStop := [⟨red, some 0⟩, ⟨blue, some (.ranked false .top)⟩]
  have hread : Gradient.ofText t = .ok ⟨.default, [red, blue], t⟩ :=
    Placement.eq_ok_of_toOption (by decide +kernel)
  have hplaced : Placement.place [red, blue] = .ok placed :=
    Placement.eq_ok_of_toOption (by decide +kernel)
  have hconvert : convert {} t = .ok (Legacy.write (.ofSides [.top]) placed) := by
    rw [convert_of_read hread, if_neg (by decide)]
    exact Legacy.ofParts_eq_ok_iff.2 ⟨_, _, rfl, hplaced, rfl⟩
  refine ⟨_, _, hread, hconvert, fun hform => ?_⟩
  -- the second stop would be written with a finite offset
  have hcolors : ∀ s ∈ placed, Text.SealedFrom 0 s.color := by
    simp only [placed, List.forall_mem_cons]
    exact ⟨Text.sealedFrom_of_all (by decide), Text.sealedFrom_of_all (by decide), by simp⟩
  have hfinite := (Legacy.hasForm_number_iff (List.cons_ne_nil _ _) (by decide) hcolors).1 hform
  exact hfinite _ (List.mem_cons_of_mem _ (List.mem_cons_self ..)) rfl

end LegacyGradient
