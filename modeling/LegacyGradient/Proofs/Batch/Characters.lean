/-
  LegacyGradient.Proofs.Batch.Characters

  Where the characters of a new value come from. The older form of a gradient is made of its colors,
  as they were written, and of printable characters of seven bits (`drawnFrom_of_convert`). So every
  other character of a new value stood in the old one (`Batch.drawnFrom_of_ofText`); in particular no
  line feed comes in.
-/
import LegacyGradient.Proofs.Batch.Segments
import LegacyGradient.Proofs.Batch.Collected
import LegacyGradient.Proofs.Convert.Form

namespace LegacyGradient

variable {options : Options} {source t legacy value : Text} {ts : List Text} {c : Char}

namespace Text

/-- The printable characters of seven bits. -/
def isPlain (c : Char) : Bool := ' ' ≤ c && c ≤ '~'

/-- The characters of a text stand in `source` or are plain. -/
def DrawnFrom (source t : Text) : Prop := ∀ c ∈ t, c ∈ source ∨ isPlain c = true

theorem drawnFrom_of_all (h : t.all isPlain = true) : DrawnFrom source t :=
  fun c hc => .inr (List.all_eq_true.1 h c hc)

theorem isPlain_of_isDigit (h : c.isDigit = true) : isPlain c = true := by
  simp only [Char.isDigit, Bool.and_eq_true, decide_eq_true_eq] at h
  have hlow : ' ' ≤ c := UInt32.le_trans (by decide) h.1
  have hhigh : c ≤ '~' := UInt32.le_trans h.2 (by decide)
  rw [isPlain, decide_eq_true hlow, decide_eq_true hhigh, Bool.and_self]

theorem drawnFrom_of_isDigit (h : ∀ c ∈ t, c.isDigit = true) : DrawnFrom source t :=
  fun c hc => .inr (isPlain_of_isDigit (h c hc))

theorem drawnFrom_of_subset (h : t ⊆ source) : DrawnFrom source t := fun _ hc => .inl (h hc)

theorem DrawnFrom.append {u : Text} (ht : DrawnFrom source t) (hu : DrawnFrom source u) :
    DrawnFrom source (t ++ u) :=
  List.forall_mem_append.2 ⟨ht, hu⟩

theorem DrawnFrom.mono {source' : Text} (ht : DrawnFrom source t) (h : source ⊆ source') :
    DrawnFrom source' t :=
  fun c hc => (ht c hc).imp_left fun hmem => h hmem

/-- What is joined comes from the parts and the separator. -/
theorem mem_join {separator : Text} (hc : c ∈ join separator ts) :
    c ∈ separator ∨ ∃ t ∈ ts, c ∈ t := by
  cases ts with
  | nil => contradiction
  | cons t ts =>
    rw [join_cons, List.mem_append, List.mem_flatMap] at hc
    rcases hc with hc | ⟨u, hu, hc⟩
    · exact .inr ⟨t, List.mem_cons_self, hc⟩
    · rcases List.mem_append.1 hc with hc | hc
      · exact .inl hc
      · exact .inr ⟨u, List.mem_cons_of_mem t hu, hc⟩

theorem subset_join (separator : Text) (ht : t ∈ ts) : t ⊆ join separator ts := by
  intro c hc
  cases ts with
  | nil => contradiction
  | cons u us =>
    rw [join_cons, List.mem_append, List.mem_flatMap]
    rcases List.mem_cons.1 ht with rfl | ht
    · exact .inl hc
    · exact .inr ⟨t, ht, List.mem_append_right separator hc⟩

theorem DrawnFrom.join {separator : Text} (hseparator : separator.all isPlain = true)
    (h : ∀ t ∈ ts, DrawnFrom source t) : DrawnFrom source (join separator ts) := by
  intro c hc
  rcases mem_join hc with hc | ⟨t, ht, hc⟩
  · exact drawnFrom_of_all hseparator c hc
  · exact h t ht c hc

end Text

open Text (DrawnFrom)

/-! ## The older form -/

theorem Point.drawnFrom_display (p : Point) : DrawnFrom source p.display := by
  apply Text.drawnFrom_of_all
  obtain ⟨x, y⟩ := p
  cases x <;> cases y <;> decide

theorem Number.IsNumeral.drawnFrom (h : IsNumeral t) : DrawnFrom source t := by
  obtain ⟨sign, wholes, point, decimals, rfl, hsign, hwholes, hpoint, -, hdecimals⟩ := h
  have hsign' : DrawnFrom source sign := by
    rcases hsign with rfl | rfl <;> exact Text.drawnFrom_of_all (by decide)
  have hpoint' : DrawnFrom source point := by
    rcases hpoint with rfl | rfl <;> exact Text.drawnFrom_of_all (by decide)
  exact hsign'.append (((Text.drawnFrom_of_isDigit hwholes).append hpoint').append
    (Text.drawnFrom_of_isDigit hdecimals))

theorem Binary64.drawnFrom_display (x : Binary64) : DrawnFrom source x.display := by
  by_cases hx : x.IsFinite
  · exact (isNumeral_display hx).drawnFrom
  · apply Text.drawnFrom_of_all
    have hletters : ∀ t ∈ ["NaN".toList, "inf".toList, "-inf".toList],
        t.all Text.isPlain = true := by decide
    exact hletters _ (display_of_not_isFinite hx)

theorem Legacy.StopForm.drawnFrom {IsOffset : Text → Prop} {last i : Nat} {color : Text}
    (h : StopForm IsOffset last i color t) (hcolor : color ⊆ source)
    (hoffset : ∀ p, IsOffset p → DrawnFrom source p) : DrawnFrom source t := by
  have hcolor' := Text.drawnFrom_of_subset hcolor
  have hplain : ∀ u : Text, u.all Text.isPlain = true → DrawnFrom source u :=
    fun u => Text.drawnFrom_of_all
  cases h with
  | start => exact ((hplain _ (by decide)).append hcolor').append (hplain _ (by decide))
  | finish => exact ((hplain _ (by decide)).append hcolor').append (hplain _ (by decide))
  | between hp =>
    exact ((((hplain _ (by decide)).append (hoffset _ hp)).append (hplain _ (by decide))).append
      hcolor').append (hplain _ (by decide))

theorem Legacy.HasForm.drawnFrom {IsOffset : Text → Prop} {colors : List Text}
    (h : HasForm IsOffset colors t) (hcolors : ∀ color ∈ colors, color ⊆ source)
    (hoffset : ∀ p, IsOffset p → DrawnFrom source p) : DrawnFrom source t := by
  obtain ⟨-, start, finish, stops, -, hlength, hform, rfl⟩ := h
  have hstops : ∀ stop ∈ stops, DrawnFrom source stop := by
    intro stop hstop
    obtain ⟨i, hi, rfl⟩ := List.mem_iff_getElem.1 hstop
    have hi' : i < colors.length := by omega
    exact (hform i _ _ (List.getElem?_eq_getElem hi') (List.getElem?_eq_getElem hi)).drawnFrom
      (hcolors _ (List.getElem_mem hi')) hoffset
  have harguments : DrawnFrom source (arguments start finish stops) := by
    apply DrawnFrom.join (by decide)
    simp only [List.forall_mem_cons]
    exact ⟨Text.drawnFrom_of_all (by decide), start.drawnFrom_display, finish.drawnFrom_display,
      hstops⟩
  have hopen : DrawnFrom source (functionName ++ ['(']) := Text.drawnFrom_of_all (by decide)
  have := hopen.append (harguments.append (Text.drawnFrom_of_all (t := [')']) (by decide)))
  rwa [List.append_assoc] at this

/-! ## Conversions -/

/-- The colors of a gradient stand in its text. -/
theorem WrittenGradient.color_subset_text (w : WrittenGradient) :
    ∀ color ∈ w.stops.map (·.color), color ⊆ w.text := by
  intro color hcolor
  obtain ⟨stop, hstop, rfl⟩ := List.mem_map.1 hcolor
  obtain ⟨item, hitem, rfl⟩ := List.mem_map.1 hstop
  have hlist : item.text ⊆ Text.join [','] (w.items.map WrittenStop.text) :=
    Text.subset_join [','] (List.mem_map_of_mem hitem)
  intro c hc
  have hc' : c ∈ item.text := by
    rw [WrittenStop.text]
    simp only [List.mem_append]
    exact .inl (.inl (.inl (.inr hc)))
  rw [text]
  simp only [List.mem_append]
  exact .inl (.inr (hlist hc'))

/-- A conversion adds plain characters only. -/
theorem drawnFrom_of_convert (h : convert options t = .ok legacy) : DrawnFrom t legacy := by
  obtain ⟨w, -, rfl, hform, -⟩ := convert_form h
  apply hform.drawnFrom w.color_subset_text
  rintro p ⟨x, rfl⟩
  exact x.drawnFrom_display

/-! ## Batches -/

namespace Batch

variable {batch : Batch}

theorem subset_of_mem_segments {s : Text} (hs : s ∈ segments value) : s ⊆ value := by
  obtain ⟨piece, hpiece, rfl⟩ := List.mem_map.1 (List.mem_filter.1 hs).1
  obtain ⟨before, after, htrim, -⟩ := Text.exists_blanks_trim piece
  have hvalue := Text.subset_join [','] hpiece
  rw [Text.join_pieces] at hvalue
  intro c hc
  apply hvalue
  rw [htrim]
  exact List.mem_append_left after (List.mem_append_right before hc)

/-- The new value has no characters but those of the old one and plain ones. -/
theorem drawnFrom_of_ofText (h : ofText options value = .ok batch) :
    DrawnFrom value batch.value := by
  obtain ⟨-, rfl⟩ := ofText_eq_ok_iff.1 h
  apply DrawnFrom.join (by decide)
  intro t ht
  obtain ⟨s, hs, hpart⟩ := List.mem_filterMap.1 ht
  have hsource := subset_of_mem_segments hs
  rw [part?] at hpart
  split at hpart
  · next hconvert =>
    obtain rfl := Option.some.inj hpart
    exact (drawnFrom_of_convert hconvert).mono hsource
  · split at hpart
    · obtain rfl := Option.some.inj hpart
      exact Text.drawnFrom_of_subset hsource
    · contradiction

end Batch

end LegacyGradient
