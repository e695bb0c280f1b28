/-
  LegacyGradient.Proofs.Gradient.Reading

  What the two passes over a gradient make of it together. Every written gradient whose tokens are
  clear is read as the gradient that is meant, and every text that the first pass accepts is a
  written gradient and is read as the gradient that it means, so the second pass refuses nothing.
-/
import LegacyGradient.Proofs.Gradient.Outline

namespace LegacyGradient

namespace WrittenGradient

/-- The blanks in front of the first stop belong to no stop. -/
theorem stops_flush (w : WrittenGradient) :
    (w.first.flush :: w.others).map WrittenStop.stop = w.stops := rfl

/-- The second pass finds the stops that are meant. -/
theorem listOfText_list {w : WrittenGradient} (h : w.Clear) :
    Stop.listOfText w.list = .ok w.stops := by
  rw [list, ← stops_flush]
  refine Stop.listOfText_join (List.cons_ne_nil _ _) fun s hs => ?_
  rcases List.mem_cons.1 hs with rfl | hs
  · exact h.apart w.first (List.mem_cons_self ..)
  · exact h.apart s (List.mem_cons_of_mem _ hs)

theorem ofText_of_clear {w : WrittenGradient} (h : w.Clear) :
    Gradient.ofText w.text = .ok ⟨w.direction, w.stops, w.text⟩ := by
  simp only [Gradient.ofText, outline_text h, bind, Except.bind, listOfText_list h]
  rfl

end WrittenGradient

namespace Gradient

/-! ## Completeness -/

/-- A gradient is read as it was meant, however the blanks around its tokens were chosen. -/
theorem ofText_written (w : WrittenGradient) (h : w.Clear) :
    Gradient.ofText w.text = .ok ⟨w.direction, w.stops, w.text⟩ :=
  w.ofText_of_clear h

/-- A color in digits and a length that begins with a digit, before the keyword of an edge. -/
theorem ofText_written_two_stops :
    Gradient.ofText "\tlinear-gradient(#fff 10% , bottom)".toList =
      .ok ⟨.default, [⟨"#fff".toList, some "10%".toList⟩, ⟨"bottom".toList, none⟩],
        "\tlinear-gradient(#fff 10% , bottom)".toList⟩ := by
  let blank : Gap := ⟨[' '], List.forall_mem_singleton.2 rfl⟩
  let white : WrittenStop := ⟨.none, "#fff".toList, by decide +kernel, blank, some "10%".toList,
    by simp only [Option.mem_some_iff, forall_eq']; decide +kernel, blank⟩
  let bottom : WrittenStop := ⟨blank, "bottom".toList, by decide +kernel, .none, none, by simp, .none⟩
  exact ofText_written ⟨⟨['\t'], List.forall_mem_singleton.2 rfl⟩, .none, none, white, [bottom], .none⟩
    { apart := by simp [WrittenGradient.items, WrittenStop.Apart, white, bottom, blank]
      firstIsStop := by simp [WrittenGradient.FirstIsStop, white] }

/-! ## Soundness -/

/-- The second pass never refuses what the first one accepts, and a gradient that was read is one
that was written: it has the direction that its text names and the stops of its list. -/
theorem passes_agree (t : Text) :
    (∀ token, Gradient.ofText t ≠ .error (.malformedStop token)) ∧
      ∀ outline, Outline.ofText t = .ok outline →
        (∃ stops, Stop.listOfText outline.stopList = .ok stops) ∧
          ∃ w : WrittenGradient, w.text = t ∧
            Gradient.ofText t = .ok ⟨w.direction, w.stops, t⟩ := by
  have hread : ∀ outline, Outline.ofText t = .ok outline →
      ∃ w : WrittenGradient, w.Clear ∧ w.text = t ∧ outline = ⟨w.direction, w.list⟩ := by
    intro outline houtline
    obtain ⟨w, hw, rfl⟩ := WrittenGradient.exists_text_eq houtline
    rw [WrittenGradient.outline_text hw] at houtline
    exact ⟨w, hw, rfl, (Except.ok.inj houtline).symm⟩
  refine ⟨fun token herror => ?_, fun outline houtline => ?_⟩
  · cases houtline : Outline.ofText t with
    | error e =>
      -- the first pass has an error of its own
      obtain rfl := Outline.eq_notRecognized_of_error houtline
      simp only [Gradient.ofText, houtline, bind, Except.bind] at herror
      cases herror
    | ok outline =>
      obtain ⟨w, hw, rfl, -⟩ := hread outline houtline
      rw [w.ofText_of_clear hw] at herror
      contradiction
  · obtain ⟨w, hw, rfl, rfl⟩ := hread outline houtline
    exact ⟨⟨w.stops, WrittenGradient.listOfText_list hw⟩, w, rfl, w.ofText_of_clear hw⟩

/-- A direction, and a color with commas and blanks between its parentheses. -/
theorem passes_agree_function :
    ∃ w : WrittenGradient, w.text = "linear-gradient(right, rgb(1, 2, 3)0, red)".toList ∧
      Gradient.ofText "linear-gradient(right, rgb(1, 2, 3)0, red)".toList =
        .ok ⟨w.direction, w.stops, "linear-gradient(right, rgb(1, 2, 3)0, red)".toList⟩ :=
  ((passes_agree _).2 ⟨.keywords [.right], "rgb(1, 2, 3)0, red".toList⟩
    (Outline.ofText_eq_ok_iff.2 (by decide +kernel))).2

end Gradient

end LegacyGradient
