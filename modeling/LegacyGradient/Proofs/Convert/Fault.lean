/-
  LegacyGradient.Proofs.Convert.Fault

  What a conversion refuses. A written gradient may have several faults at once, and they are looked
  for in a fixed order: too few stops, an angle that points to no edge, and then, from the first
  stop on, a length that is no percentage (`WrittenGradient.Fault`). A conversion fails exactly with
  the first fault, or because its text is no written gradient (`convert_outcome`).
-/
import LegacyGradient.Convert
import LegacyGradient.Proofs.Gradient.Reading
import LegacyGradient.Proofs.Placement.Pass
import LegacyGradient.Proofs.Token.Percentage

namespace LegacyGradient

variable {options : Options} {t : Text} {e : ConversionError} {d : Direction} {stops : List Stop}
  {required : Nat}

/-! ## Faults -/

/-- The direction is an angle that points to no edge of the box. -/
def Direction.Slanted (d : Direction) : Prop :=
  ∃ degrees, d = .angle degrees ∧ Angle.side? degrees = none

/-- The stop has a length that is neither a number with a percent sign nor a bare zero. -/
def WrittenStop.Misplaced (s : WrittenStop) : Prop :=
  ∃ l ∈ s.length, ¬ Percentage.IsPercentage l

/-- The first fault of a gradient that needs `required` stops. -/
inductive WrittenGradient.Fault (required : Nat) (w : WrittenGradient) : ConversionError → Prop where
  /-- There are too few stops. -/
  | tooFewStops (hcount : w.items.length < required) :
      Fault required w (.tooFewStops w.items.length required)
  /-- There are stops enough, but the direction is an angle that points to no edge. -/
  | unsupportedDirection {degrees : Binary64} (hcount : required ≤ w.items.length)
      (hdirection : w.direction = .angle degrees) (hside : Angle.side? degrees = none) :
      Fault required w (.unsupportedDirection (degrees.display ++ "deg".toList))
  /-- All is well but for a stop whose length is no percentage, and no stop before it has such a
  length. -/
  | nonPercentagePosition {before after : List WrittenStop} {s : WrittenStop} {l : Text}
      (hcount : required ≤ w.items.length) (hdirection : ¬ w.direction.Slanted)
      (hitems : w.items = before ++ s :: after) (hbefore : ∀ s ∈ before, ¬ s.Misplaced)
      (hlength : s.length = some l) (hl : ¬ Percentage.IsPercentage l) :
      Fault required w (.nonPercentagePosition s.color l)

/-! ## The parts of a conversion -/

theorem Corners.ofDirection_eq_error_iff :
    Corners.ofDirection d = .error e ↔
      ∃ degrees, d = .angle degrees ∧ Angle.side? degrees = none ∧
        e = .unsupportedDirection (degrees.display ++ "deg".toList) := by
  cases d with
  | keywords sides => simp [Corners.ofDirection]
  | angle degrees =>
    cases hside : Angle.side? degrees with
    | none => simp [Corners.ofDirection, hside, Direction.display, eq_comm]
    | some side => simp [Corners.ofDirection, hside]

theorem Corners.exists_ofDirection_iff :
    (∃ corners, Corners.ofDirection d = .ok corners) ↔ ¬ d.Slanted := by
  cases d with
  | keywords sides => simp [Corners.ofDirection, Direction.Slanted]
  | angle degrees =>
    cases hside : Angle.side? degrees <;> simp [Corners.ofDirection, Direction.Slanted, hside]

/-- The direction is looked at before the stops are. -/
theorem Legacy.ofParts_eq_error_iff :
    Legacy.ofParts d stops = .error e ↔
      Corners.ofDirection d = .error e ∨ ¬ d.Slanted ∧ Placement.place stops = .error e := by
  cases hcorners : Corners.ofDirection d with
  | error e' =>
    have hslanted : d.Slanted := by
      obtain ⟨degrees, hd, hside, -⟩ := Corners.ofDirection_eq_error_iff.1 hcorners
      exact ⟨degrees, hd, hside⟩
    simp [Legacy.ofParts, hcorners, bind, Except.bind, hslanted]
  | ok corners =>
    have hslanted := Corners.exists_ofDirection_iff.1 ⟨corners, hcorners⟩
    cases hplace : Placement.place stops <;>
      simp [Legacy.ofParts, hcorners, hplace, bind, Except.bind, pure, Except.pure, hslanted]

theorem Legacy.ofParts_eq_ok_iff {legacy : Text} :
    Legacy.ofParts d stops = .ok legacy ↔
      ∃ corners placed, Corners.ofDirection d = .ok corners ∧ Placement.place stops = .ok placed ∧
        Legacy.write corners placed = legacy := by
  cases hcorners : Corners.ofDirection d with
  | error e => simp [Legacy.ofParts, hcorners, bind, Except.bind]
  | ok corners =>
    cases hplace : Placement.place stops <;>
      simp [Legacy.ofParts, hcorners, hplace, bind, Except.bind, pure, Except.pure]

/-- For the stop as it is read it makes no difference that its length was matched by another
rule. -/
theorem WrittenStop.misplaced_stop_iff (s : WrittenStop) : s.stop.Misplaced ↔ s.Misplaced := by
  have hread : ∀ l ∈ s.length, Percentage.ofText? l = none ↔ ¬ Percentage.IsPercentage l := by
    intro l hl
    rw [← Percentage.isSome_ofText?_iff (s.length_scan l hl), Option.not_isSome_iff_eq_none]
  constructor
  · rintro ⟨l, hl, hnone⟩
    exact ⟨l, hl, (hread l hl).1 hnone⟩
  · rintro ⟨l, hl, hnot⟩
    exact ⟨l, hl, (hread l hl).2 hnot⟩

/-- The placement refuses the first stop with a length that is no percentage. -/
theorem Placement.place_stops_eq_error_iff {w : WrittenGradient} :
    place w.stops = .error e ↔
      ∃ before s after l, w.items = before ++ s :: after ∧ (∀ s ∈ before, ¬ s.Misplaced) ∧
        s.length = some l ∧ ¬ Percentage.IsPercentage l ∧ e = .nonPercentagePosition s.color l := by
  rw [place_eq_error_iff, WrittenGradient.stops]
  constructor
  · rintro ⟨before, stop, after, l, hsplit, hbefore, hl, hnone, rfl⟩
    obtain ⟨before, rest, hitems, rfl, hrest⟩ := List.map_eq_append_iff.1 hsplit
    obtain ⟨s, after, rfl, rfl, rfl⟩ := List.map_eq_cons_iff.1 hrest
    refine ⟨before, s, after, l, hitems, ?_, hl, ?_, rfl⟩
    · intro s' hs'
      rw [← s'.misplaced_stop_iff]
      exact hbefore s'.stop (List.mem_map_of_mem hs')
    · obtain ⟨l', hl', hnot⟩ := s.misplaced_stop_iff.1 ⟨l, hl, hnone⟩
      obtain rfl := Option.some.inj (hl.symm.trans hl')
      exact hnot
  · rintro ⟨before, s, after, l, hitems, hbefore, hl, hnot, rfl⟩
    refine ⟨before.map WrittenStop.stop, s.stop, after.map WrittenStop.stop, l, ?_, ?_, hl, ?_, rfl⟩
    · rw [hitems, List.map_append, List.map_cons]
    · intro stop hstop
      obtain ⟨s', hs', rfl⟩ := List.mem_map.1 hstop
      rw [s'.misplaced_stop_iff]
      exact hbefore s' hs'
    · obtain ⟨l', hl', hnone⟩ := s.misplaced_stop_iff.2 ⟨l, hl, hnot⟩
      obtain rfl := Option.some.inj (hl.symm.trans hl')
      exact hnone

/-! ## Conversions -/

theorem convert_eq_of_refused (h : ∀ o, Outline.ofText t ≠ .ok o) :
    convert options t = .error (.notRecognized t) := by
  cases houtline : Outline.ofText t with
  | ok o => exact absurd houtline (h o)
  | error e =>
    obtain rfl := Outline.eq_notRecognized_of_error houtline
    simp only [convert, Gradient.ofText, houtline, bind, Except.bind]

/-- A gradient is converted from its direction and its stops, if it has enough of them. -/
theorem convert_of_read {gradient : Gradient} (h : Gradient.ofText t = .ok gradient) :
    convert options t =
      if gradient.stops.length < options.minStops then
        .error (.tooFewStops gradient.stops.length options.minStops)
      else Legacy.ofParts gradient.direction gradient.stops := by
  simp only [convert, h, bind, Except.bind]
  split <;> rfl

theorem convert_text {w : WrittenGradient} (h : w.Clear) :
    convert options w.text =
      if w.items.length < options.minStops then
        .error (.tooFewStops w.items.length options.minStops)
      else Legacy.ofParts w.direction w.stops := by
  have hcount : w.stops.length = w.items.length := List.length_map _
  rw [convert_of_read (w.ofText_of_clear h), hcount]

theorem convert_text_eq_error_iff {w : WrittenGradient} (h : w.Clear) :
    convert options w.text = .error e ↔ w.Fault options.minStops e := by
  rw [convert_text h]
  by_cases hcount : w.items.length < options.minStops
  · rw [if_pos hcount]
    constructor
    · intro he
      obtain rfl := Except.error.inj he
      exact .tooFewStops hcount
    · rintro (_ | ⟨hcount', -, -⟩ | ⟨hcount', -, -, -, -, -⟩)
      · rfl
      · omega
      · omega
  · rw [if_neg hcount, Legacy.ofParts_eq_error_iff, Corners.ofDirection_eq_error_iff,
      Placement.place_stops_eq_error_iff]
    have hcount' : options.minStops ≤ w.items.length := Nat.not_lt.1 hcount
    constructor
    · rintro (⟨degrees, hdirection, hside, rfl⟩ |
        ⟨hdirection, before, s, after, l, hitems, hbefore, hlength, hl, rfl⟩)
      · exact .unsupportedDirection hcount' hdirection hside
      · exact .nonPercentagePosition hcount' hdirection hitems hbefore hlength hl
    · rintro (hcount | ⟨-, hdirection, hside⟩ | ⟨-, hdirection, hitems, hbefore, hlength, hl⟩)
      · contradiction
      · exact .inl ⟨_, hdirection, hside, rfl⟩
      · exact .inr ⟨hdirection, _, _, _, _, hitems, hbefore, hlength, hl, rfl⟩

/-- Every text is no gradient, or a written gradient. -/
theorem refused_or_written (t : Text) :
    (∀ o, Outline.ofText t ≠ .ok o) ∨ ∃ w : WrittenGradient, w.Clear ∧ w.text = t := by
  cases houtline : Outline.ofText t with
  | error e => exact .inl fun o ho => by contradiction
  | ok o => exact .inr (WrittenGradient.exists_text_eq houtline)

/-- What a conversion writes is the line and the placed stops of a written gradient. -/
theorem convert_eq_ok_iff {legacy : Text} :
    convert options t = .ok legacy ↔
      ∃ (w : WrittenGradient) (corners : Corners) (placed : List PlacedStop), w.Clear ∧ w.text = t ∧
        options.minStops ≤ w.items.length ∧ Corners.ofDirection w.direction = .ok corners ∧
        Placement.place w.stops = .ok placed ∧ Legacy.write corners placed = legacy := by
  constructor
  · intro hconvert
    rcases refused_or_written t with hrefused | ⟨w, hw, rfl⟩
    · rw [convert_eq_of_refused hrefused] at hconvert
      contradiction
    · rw [convert_text hw] at hconvert
      by_cases hcount : w.items.length < options.minStops
      · rw [if_pos hcount] at hconvert
        contradiction
      · rw [if_neg hcount] at hconvert
        obtain ⟨corners, placed, hcorners, hplaced, hwrite⟩ := Legacy.ofParts_eq_ok_iff.1 hconvert
        exact ⟨w, corners, placed, hw, rfl, Nat.not_lt.1 hcount, hcorners, hplaced, hwrite⟩
  · rintro ⟨w, corners, placed, hw, rfl, hcount, hcorners, hplaced, hwrite⟩
    rw [convert_text hw, if_neg (Nat.not_lt.2 hcount)]
    exact Legacy.ofParts_eq_ok_iff.2 ⟨corners, placed, hcorners, hplaced, hwrite⟩

theorem convert_eq_error_iff :
    convert options t = .error e ↔
      (∀ o, Outline.ofText t ≠ .ok o) ∧ e = .notRecognized t ∨
        ∃ w : WrittenGradient, w.Clear ∧ w.text = t ∧ w.Fault options.minStops e := by
  constructor
  · intro he
    rcases refused_or_written t with hrefused | ⟨w, hw, rfl⟩
    · rw [convert_eq_of_refused hrefused] at he
      exact .inl ⟨hrefused, (Except.error.inj he).symm⟩
    · exact .inr ⟨w, hw, rfl, (convert_text_eq_error_iff hw).1 he⟩
  · rintro (⟨hrefused, rfl⟩ | ⟨w, hw, rfl, hfault⟩)
    · exact convert_eq_of_refused hrefused
    · exact (convert_text_eq_error_iff hw).2 hfault

/-- A conversion fails if its text is no gradient, and otherwise with the first fault of the
gradient; without a fault it succeeds. It never complains of a stop without a color, and of the
options only the number of stops that are needed counts. -/
theorem convert_outcome (options : Options) (t : Text) :
    (∀ e, convert options t = .error e ↔
      (∀ o, Outline.ofText t ≠ .ok o) ∧ e = .notRecognized t ∨
        ∃ w : WrittenGradient, w.Clear ∧ w.text = t ∧ w.Fault options.minStops e) ∧
    ((∃ legacy, convert options t = .ok legacy) ↔
      ∃ w : WrittenGradient, w.Clear ∧ w.text = t ∧ ∀ e, ¬ w.Fault options.minStops e) ∧
    (∀ token, convert options t ≠ .error (.malformedStop token)) ∧
    ∀ policy parallel,
      convert { options with policy := policy, parallel := parallel } t = convert options t := by
  refine ⟨fun e => convert_eq_error_iff, ?_, ?_, fun policy parallel => rfl⟩
  · constructor
    · rintro ⟨legacy, hlegacy⟩
      rcases refused_or_written t with hrefused | ⟨w, hw, rfl⟩
      · rw [convert_eq_of_refused hrefused] at hlegacy
        contradiction
      · refine ⟨w, hw, rfl, fun e hfault => ?_⟩
        rw [(convert_text_eq_error_iff hw).2 hfault] at hlegacy
        contradiction
    · rintro ⟨w, hw, rfl, hsound⟩
      cases hconvert : convert options w.text with
      | ok legacy => exact ⟨legacy, rfl⟩
      | error e => exact absurd ((convert_text_eq_error_iff hw).1 hconvert) (hsound e)
  · intro token he
    rcases convert_eq_error_iff.1 he with ⟨-, he⟩ | ⟨w, -, -, hfault⟩
    · contradiction
    · cases hfault

/-- Of two lengths that are no percentages the first one is told. -/
theorem convert_outcome_two_lengths :
    convert {} "linear-gradient(90deg,red 10%,lime 10px,blue 2em)".toList =
      .error (.nonPercentagePosition "lime".toList "10px".toList) := by
  let blank : Gap := ⟨[' '], List.forall_mem_singleton.2 rfl⟩
  let red : WrittenStop := ⟨.none, "red".toList, by decide +kernel, blank, some "10%".toList,
    by simp only [Option.mem_some_iff, forall_eq']; decide +kernel, .none⟩
  let lime : WrittenStop := ⟨.none, "lime".toList, by decide +kernel, blank, some "10px".toList,
    by simp only [Option.mem_some_iff, forall_eq']; decide +kernel, .none⟩
  let blue : WrittenStop := ⟨.none, "blue".toList, by decide +kernel, blank, some "2em".toList,
    by simp only [Option.mem_some_iff, forall_eq']; decide +kernel, .none⟩
  let upward : WrittenDirection := ⟨"90deg".toList, .angle 90, by decide +kernel, .none, .none⟩
  let w : WrittenGradient := ⟨.none, .none, some upward, red, [lime, blue], .none⟩
  have hclear : w.Clear :=
    { apart := by simp [w, WrittenGradient.items, WrittenStop.Apart, red, lime, blue, blank]
      firstIsStop := by simp [w, WrittenGradient.FirstIsStop] }
  have hred : Percentage.IsPercentage "10%".toList := .inr ⟨"10".toList, by decide +kernel, rfl⟩
  have hlime : ¬ Percentage.IsPercentage "10px".toList := by
    rw [← Percentage.isSome_ofText?_iff (by decide +kernel)]
    decide +kernel
  have hupward : ¬ w.direction.Slanted := by
    rw [← Corners.exists_ofDirection_iff]
    exact ⟨.ofSides [.bottom], Placement.eq_ok_of_toOption (by decide +kernel)⟩
  have htext : w.text = "linear-gradient(90deg,red 10%,lime 10px,blue 2em)".toList := by
    rw [String.toList_ofList]
    decide +kernel
  refine ((convert_outcome {} _).1 _).2 (.inr ⟨w, hclear, htext, ?_⟩)
  have hbefore : ∀ s ∈ [red], ¬ s.Misplaced := by
    simpa [WrittenStop.Misplaced, red] using hred
  exact .nonPercentagePosition (s := lime) (by decide) hupward rfl hbefore rfl hlime

end LegacyGradient
