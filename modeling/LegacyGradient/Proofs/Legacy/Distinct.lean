/-
  LegacyGradient.Proofs.Legacy.Distinct

  The written older form determines what was written. A stop has three written forms, and which one
  it has is seen from its name, so its color and the number that its offset stands for are read off
  its text (`stopText_inj`). The stops are read off the call, whose arguments are separated by commas
  that no stop has outside its parentheses, and with them the number of stops, which is not written
  (`write_inj`).
-/
import LegacyGradient.Proofs.Decimal.Positional
import LegacyGradient.Proofs.Legacy.Form
import LegacyGradient.Proofs.Token.Color

namespace LegacyGradient

/-- The two numbers have the same value: the zeros, which differ in their sign, do. -/
def Binary64.SameValue (x y : Binary64) : Prop := x = y ∨ x.IsZero ∧ y.IsZero

namespace Legacy

variable {corners corners' : Corners} {stops stops' : List PlacedStop} {stop stop' : PlacedStop}
  {last i : Nat} {offset offset' color color' : Text}

/-! ## One stop -/

theorem offsetText_inj {x y : Binary64} (hx : x ≠ .nan) (hy : y ≠ .nan)
    (h : offsetText x = offsetText y) : x.SameValue y := by
  have hzero : (0 : Binary64).IsFinite := by decide
  exact Binary64.eq_or_isZero_of_add_zero hx hy <|
    Binary64.display_inj (Binary64.add_ne_nan hx hzero) (Binary64.add_ne_nan hy hzero) h

/-- The offset and the color of a stop are told apart by the comma between them. -/
theorem colorStop_inj (hoffset : Text.SealedFrom 0 offset) (hcolor : Text.SealedFrom 0 color)
    (hoffset' : Text.SealedFrom 0 offset') (hcolor' : Text.SealedFrom 0 color')
    (h : "color-stop(".toList ++ offset ++ ", ".toList ++ color ++ [')'] =
      "color-stop(".toList ++ offset' ++ ", ".toList ++ color' ++ [')']) :
    offset = offset' ∧ color = color' := by
  have hjoin : Text.join Text.commaBlank [offset, color] =
      Text.join Text.commaBlank [offset', color'] := by
    simp only [List.append_assoc, List.append_cancel_left_eq] at h
    simp only [← List.append_assoc, List.append_cancel_right_eq] at h
    simpa [Text.join_cons, Text.commaBlank] using h
  obtain ⟨hoffsets, hcolors⟩ := Text.join_commaBlank_inj (by simp [hoffset, hcolor])
    (by simp [hoffset', hcolor']) hjoin
  exact ⟨hoffsets, (List.cons.inj hcolors).1⟩

/-- A short form stands for one offset only. -/
theorem stopText_cases (last i : Nat) (stop : PlacedStop) :
    (stop.offset.getD 0).IsZero ∧ stopText last i stop = "from(".toList ++ stop.color ++ [')'] ∨
      stop.offset.getD 0 = 1 ∧ stopText last i stop = "to(".toList ++ stop.color ++ [')'] ∨
      stopText last i stop = "color-stop(".toList ++ offsetText (stop.offset.getD 0) ++
        ", ".toList ++ stop.color ++ [')'] := by
  rw [stopText]
  split
  · next hstart => exact .inl ⟨hstart.2, rfl⟩
  · split
    · next hfinish => exact .inr (.inl ⟨hfinish.2.2, rfl⟩)
    · exact .inr (.inr rfl)

/-- The color and the value of the offset of a stop are seen from its written form, wherever in a
list it is written. -/
theorem stopText_inj (hcolor : Text.SealedFrom 0 stop.color)
    (hcolor' : Text.SealedFrom 0 stop'.color) (hoffset : stop.offset ≠ some .nan)
    (hoffset' : stop'.offset ≠ some .nan) (h : stopText last i stop = stopText last i stop') :
    stop.color = stop'.color ∧ (stop.offset.getD 0).SameValue (stop'.offset.getD 0) := by
  have hnan : ∀ {offset : Option Binary64}, offset ≠ some .nan → offset.getD 0 ≠ .nan := by
    rintro (_ | x) hx
    · decide
    · exact fun hnan => hx (congrArg some hnan)
  rcases stopText_cases last i stop with ⟨hzero, ht⟩ | ⟨hone, ht⟩ | ht <;>
    rcases stopText_cases last i stop' with ⟨hzero', ht'⟩ | ⟨hone', ht'⟩ | ht' <;>
    rw [ht, ht'] at h
  case inl.inl =>
    exact ⟨by simpa using h, .inr ⟨hzero, hzero'⟩⟩
  case inr.inl.inr.inl =>
    exact ⟨by simpa using h, .inl (hone.trans hone'.symm)⟩
  case inr.inr.inr.inr =>
    obtain ⟨htexts, hcolors⟩ := colorStop_inj (Binary64.sealed_display _) hcolor
      (Binary64.sealed_display _) hcolor' h
    exact ⟨hcolors, offsetText_inj (hnan hoffset) (hnan hoffset') htexts⟩
  -- the names of different forms begin differently
  all_goals simp at h

/-! ## The whole -/

/-- Nothing is lost when a gradient is written: its line, the number of its stops and, of each stop,
the color and the value of the offset are seen from the text. -/
theorem write_inj (hcolors : ∀ s ∈ stops, Color.lexeme s.color = some (s.color, []))
    (hcolors' : ∀ s ∈ stops', Color.lexeme s.color = some (s.color, []))
    (hoffsets : ∀ s ∈ stops, s.offset ≠ some .nan) (hoffsets' : ∀ s ∈ stops', s.offset ≠ some .nan)
    (h : write corners stops = write corners' stops') :
    corners = corners' ∧ stops.length = stops'.length ∧
      ∀ (i : Nat) (s s' : PlacedStop), stops[i]? = some s → stops'[i]? = some s' →
        s.color = s'.color ∧ (s.offset.getD 0).SameValue (s'.offset.getD 0) := by
  have hsealed : ∀ {stops : List PlacedStop},
      (∀ s ∈ stops, Color.lexeme s.color = some (s.color, [])) →
      ∀ s ∈ stops, Text.SealedFrom 0 s.color := fun h s hs => Color.lexeme_sealed (h s hs)
  rw [write_eq, write_eq] at h
  obtain ⟨hstart, hfinish, htexts⟩ := call_inj (sealed_stopTexts (hsealed hcolors))
    (sealed_stopTexts (hsealed hcolors')) h
  -- the number of stops is that of the arguments after the two points
  have hlength : stops.length = stops'.length := by
    simpa [stopTexts] using congrArg List.length htexts
  refine ⟨?_, hlength, ?_⟩
  · obtain ⟨start, finish⟩ := corners
    obtain ⟨start', finish'⟩ := corners'
    exact congrArg₂ Corners.mk hstart hfinish
  · intro i s s' hs hs'
    have htext : stopText (stops.length - 1) i s = stopText (stops.length - 1) i s' := by
      have hi := congrArg (·[i]?) htexts
      simp only [getElem?_stopTexts, hs, hs', Option.map_some, ← hlength] at hi
      exact Option.some.inj hi
    have hmem := List.mem_of_getElem? hs
    have hmem' := List.mem_of_getElem? hs'
    exact stopText_inj (hsealed hcolors s hmem) (hsealed hcolors' s' hmem') (hoffsets s hmem)
      (hoffsets' s' hmem') htext

/-- A first stop without an offset is written like one with a negative zero. -/
theorem write_inj_three_stops :
    let red : PlacedStop := ⟨⟨"red".toList, none⟩, some .half⟩
    let blue : PlacedStop := ⟨⟨"blue".toList, none⟩, some 1⟩
    let stops := [⟨⟨"rgb(1, 2, 3)".toList, none⟩, none⟩, red, blue]
    let stops' := [⟨⟨"rgb(1, 2, 3)".toList, some "-0%".toList⟩, some (.ranked true .zero)⟩, red, blue]
    write {} stops = write {} stops' ∧ ({} : Corners) = {} ∧ stops.length = stops'.length ∧
      ∀ (i : Nat) (s s' : PlacedStop), stops[i]? = some s → stops'[i]? = some s' →
        s.color = s'.color ∧ (s.offset.getD 0).SameValue (s'.offset.getD 0) := by
  intro red blue stops stops'
  have h : write {} stops = write {} stops' := by decide +kernel
  exact ⟨h, write_inj (by decide +kernel) (by decide +kernel) (by decide +kernel)
    (by decide +kernel) h⟩

end Legacy

end LegacyGradient
