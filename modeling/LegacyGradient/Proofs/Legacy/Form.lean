/-
  LegacyGradient.Proofs.Legacy.Form

  The written older form as a text: a function call whose arguments are separated by a comma and a
  blank (`write_eq`). Whatever its offsets are, it may stand anywhere in a list with commas, since
  the commas of its arguments and of their colors are all between parentheses (`sealed_write`).
-/
import LegacyGradient.Legacy
import LegacyGradient.Proofs.Binary64.Bounds
import LegacyGradient.Proofs.Binary64.Display
import LegacyGradient.Proofs.Text.Trim

namespace LegacyGradient

variable {corners : Corners} {stops : List PlacedStop} {stop : PlacedStop} {last i : Nat}

theorem Point.sealed_display (p : Point) : Text.SealedFrom 0 p.display := by
  apply Text.sealedFrom_of_all
  obtain ⟨x, y⟩ := p
  cases x <;> cases y <;> decide

theorem Point.display_inj {p p' : Point} (h : p.display = p'.display) : p = p' := by
  obtain ⟨x, y⟩ := p
  obtain ⟨x', y'⟩ := p'
  revert h
  cases x <;> cases y <;> cases x' <;> cases y' <;> decide

namespace Legacy

/-- The written forms of the stops, in order. -/
def stopTexts (stops : List PlacedStop) : List Text :=
  stops.zipIdx.map fun (stop, i) => stopText (stops.length - 1) i stop

/-- The arguments of the call with these two points and these stops. -/
def arguments (start finish : Point) (stops : List Text) : Text :=
  Text.join Text.commaBlank ("linear".toList :: start.display :: finish.display :: stops)

/-- The function call with these two points and these stops. -/
def call (start finish : Point) (stops : List Text) : Text :=
  functionName ++ '(' :: (arguments start finish stops ++ [')'])

theorem write_eq (corners : Corners) (stops : List PlacedStop) :
    write corners stops = call corners.start corners.finish (stopTexts stops) := by
  have hstops : (stops.zipIdx.flatMap fun (stop, i) =>
      ", ".toList ++ stopText (stops.length - 1) i stop) =
        (stopTexts stops).flatMap (Text.commaBlank ++ ·) := by
    rw [stopTexts, List.flatMap_map]
    rfl
  have harguments : arguments corners.start corners.finish (stopTexts stops) = "linear, ".toList ++
      corners.display ++ (stopTexts stops).flatMap (Text.commaBlank ++ ·) := by
    rw [arguments, Text.join_cons, List.flatMap_cons, List.flatMap_cons, Corners.display]
    simp [Text.commaBlank]
  rw [call, harguments, ← hstops]
  simp [write]

/-! ## The form of the stops -/

/-- The written form of the stop at index `i` with this color, where `IsOffset` says how offsets are
written. -/
inductive StopForm (IsOffset : Text → Prop) (last i : Nat) (color : Text) : Text → Prop where
  /-- The first stop may be written without its offset. -/
  | start (hi : i = 0) : StopForm IsOffset last i color ("from(".toList ++ color ++ [')'])
  /-- So may the last one, if it is another. -/
  | finish (hi : i ≠ 0) (hlast : i = last) :
      StopForm IsOffset last i color ("to(".toList ++ color ++ [')'])
  /-- Every stop may be written with its offset. -/
  | between {offset : Text} (hoffset : IsOffset offset) :
      StopForm IsOffset last i color
        ("color-stop(".toList ++ offset ++ ", ".toList ++ color ++ [')'])

/-- The older form of a gradient with these colors: a call with two points that differ and with one
stop for each color, in order. -/
def HasForm (IsOffset : Text → Prop) (colors : List Text) (t : Text) : Prop :=
  colors ≠ [] ∧ ∃ (start finish : Point) (stops : List Text), start ≠ finish ∧
    stops.length = colors.length ∧
    (∀ i color stop, colors[i]? = some color → stops[i]? = some stop →
      StopForm IsOffset (colors.length - 1) i color stop) ∧
    t = call start finish stops

variable {IsOffset : Text → Prop} {color t : Text}

/-- The written stops have the form, whatever texts their offsets have. -/
theorem stopForm_stopText (h : IsOffset (offsetText (stop.offset.getD 0))) :
    StopForm IsOffset last i stop.color (stopText last i stop) := by
  rw [stopText]
  split
  · next hstart => exact .start hstart.1
  · split
    · next hfinish => exact .finish hfinish.1 hfinish.2.1
    · exact .between h

theorem StopForm.offset {offset : Text} (h : StopForm IsOffset last i color
    ("color-stop(".toList ++ offset ++ ", ".toList ++ color ++ [')'])) : IsOffset offset := by
  generalize ht : "color-stop(".toList ++ offset ++ ", ".toList ++ color ++ [')'] = t at h
  cases h with
  | start => simp at ht
  | finish => simp at ht
  | between hoffset =>
    simp only [List.append_assoc, List.append_cancel_left_eq, List.append_cancel_right_eq] at ht
    rwa [ht]

/-- A stop is written in numbers exactly if its offset is finite. -/
theorem stopForm_isNumeral_iff :
    StopForm Number.IsNumeral last i stop.color (stopText last i stop) ↔
      (stop.offset.getD 0).IsFinite := by
  have hoffset : Number.IsNumeral (offsetText (stop.offset.getD 0)) ↔
      (stop.offset.getD 0).IsFinite := by
    rw [offsetText, Binary64.isNumeral_display_iff, Binary64.isFinite_add_zero]
  constructor
  · intro h
    rw [stopText] at h
    split at h
    -- the short forms stand for offsets of zero and one
    · next hstart => rcases hstart.2 with hzero | hzero <;> rw [hzero] <;> decide
    · split at h
      · next hfinish =>
        obtain ⟨r, hr, -, htop, -⟩ := Binary64.ofNat_eq (n := 1) (by decide) (by decide)
        rw [hfinish.2.2, show (1 : Binary64) = .ranked false r from hr]
        exact htop
      · exact hoffset.1 h.offset
  · intro h
    exact stopForm_stopText (hoffset.2 h)

/-! ## Written stops in a list -/

/-- A written stop may stand anywhere in a list with commas, if its color and its offset may. -/
theorem StopForm.sealed (h : StopForm IsOffset last i color t) (hcolor : Text.SealedFrom 0 color)
    (hoffset : ∀ p, IsOffset p → Text.SealedFrom 0 p) : Text.SealedFrom 0 t := by
  replace hcolor := hcolor.mono (Nat.zero_le 1)
  -- a name and, between parentheses, arguments that are sealed
  have hcall : ∀ name arguments : Text, Text.SealedFrom 0 name → Text.SealedFrom 1 arguments →
      Text.SealedFrom 0 (name ++ ('(' :: (arguments ++ [')']))) :=
    fun name arguments hname harguments => hname.append harguments.parens
  cases h with
  | start => simpa using hcall "from".toList color (Text.sealedFrom_of_all (by decide)) hcolor
  | finish => simpa using hcall "to".toList color (Text.sealedFrom_of_all (by decide)) hcolor
  | between hp =>
    have hname : Text.SealedFrom 0 "color-stop".toList := Text.sealedFrom_of_all (by decide)
    have hcomma : Text.SealedFrom 1 Text.commaBlank := Text.sealedFrom_of_all (by decide)
    have harguments := (((hoffset _ hp).mono (Nat.zero_le 1)).append hcomma).append hcolor
    simpa [Text.commaBlank] using hcall "color-stop".toList _ hname harguments

theorem sealed_stopText (h : Text.SealedFrom 0 stop.color) :
    Text.SealedFrom 0 (stopText last i stop) := by
  have hform : StopForm (· = offsetText (stop.offset.getD 0)) last i stop.color (stopText last i stop) :=
    stopForm_stopText rfl
  apply hform.sealed h
  rintro p rfl
  exact Binary64.sealed_display _

theorem sealed_stopTexts (h : ∀ s ∈ stops, Text.SealedFrom 0 s.color) :
    ∀ t ∈ stopTexts stops, Text.SealedFrom 0 t := by
  intro t ht
  obtain ⟨⟨stop, i⟩, hmem, rfl⟩ := List.mem_map.1 ht
  exact sealed_stopText (h stop (List.fst_mem_of_mem_zipIdx hmem))

theorem sealed_arguments {start finish : Point} {ts : List Text} (h : ∀ t ∈ ts, Text.SealedFrom 0 t) :
    Text.SealedFrom 1 (arguments start finish ts) := by
  have hlinear : Text.SealedFrom 1 "linear".toList := Text.sealedFrom_of_all (by decide)
  apply Text.sealedFrom_join (Text.sealedFrom_of_all (by decide))
  intro t ht
  rcases List.mem_cons.1 ht with rfl | ht
  · exact hlinear
  · rcases List.mem_cons.1 ht with rfl | ht
    · exact start.sealed_display.mono (Nat.zero_le 1)
    · rcases List.mem_cons.1 ht with rfl | ht
      · exact finish.sealed_display.mono (Nat.zero_le 1)
      · exact (h t ht).mono (Nat.zero_le 1)

/-- No comma and no parenthesis of a written gradient is seen from outside. -/
theorem sealed_write (h : ∀ s ∈ stops, Text.SealedFrom 0 s.color) :
    Text.SealedFrom 0 (write corners stops) := by
  have hname : Text.SealedFrom 0 functionName := Text.sealedFrom_of_all (by decide)
  rw [write_eq, call]
  exact hname.append (sealed_arguments (sealed_stopTexts h)).parens

theorem head?_write : (write corners stops).head? = some '-' := by
  rw [write_eq]
  rfl

theorem trimmed_write : (write corners stops).Trimmed := by
  have := Text.Trimmed.between (s := functionName) (t := [')']) (by decide)
    (Text.outside_cons.2 rfl) (by decide) (Text.outside_cons.2 rfl)
    ('(' :: arguments corners.start corners.finish (stopTexts stops))
  rw [write_eq, call]
  rwa [List.append_assoc] at this

/-! ## The form of the whole -/

/-- A call with sealed stops has no other points and no other stops. -/
theorem call_inj {start finish start' finish' : Point} {ts ts' : List Text}
    (hts : ∀ t ∈ ts, Text.SealedFrom 0 t) (hts' : ∀ t ∈ ts', Text.SealedFrom 0 t)
    (h : call start finish ts = call start' finish' ts') :
    start = start' ∧ finish = finish' ∧ ts = ts' := by
  have hparts : ∀ {start finish : Point} {ts : List Text}, (∀ t ∈ ts, Text.SealedFrom 0 t) →
      ∀ t ∈ "linear".toList :: start.display :: finish.display :: ts, Text.SealedFrom 0 t := by
    intro start finish ts hts
    simp only [List.forall_mem_cons]
    exact ⟨Text.sealedFrom_of_all (by decide), start.sealed_display, finish.sealed_display, hts⟩
  have harguments : arguments start finish ts = arguments start' finish' ts' := by
    rw [call, call, List.append_cancel_left_eq] at h
    exact List.append_cancel_right (List.cons.inj h).2
  obtain ⟨-, htail⟩ := Text.join_commaBlank_inj (hparts hts) (hparts hts') harguments
  obtain ⟨hstart, htail⟩ := List.cons.inj htail
  obtain ⟨hfinish, hstops⟩ := List.cons.inj htail
  exact ⟨Point.display_inj hstart, Point.display_inj hfinish, hstops⟩

theorem getElem?_stopTexts (stops : List PlacedStop) (i : Nat) :
    (stopTexts stops)[i]? = stops[i]?.map (stopText (stops.length - 1) i) := by
  rw [stopTexts, List.getElem?_map, List.getElem?_zipIdx, Option.map_map, Nat.zero_add]
  rfl

/-- What is written has the form exactly if each stop has it: the arguments of a call are no others
than those that were written. -/
theorem hasForm_write_iff (hne : stops ≠ []) (hpoints : corners.start ≠ corners.finish)
    (hcolors : ∀ s ∈ stops, Text.SealedFrom 0 s.color)
    (hoffset : ∀ p, IsOffset p → Text.SealedFrom 0 p) :
    HasForm IsOffset (stops.map (·.color)) (write corners stops) ↔
      ∀ i stop, stops[i]? = some stop →
        StopForm IsOffset (stops.length - 1) i stop.color (stopText (stops.length - 1) i stop) := by
  constructor
  · -- the stops of any such call are sealed too, so they are the written ones
    rintro ⟨-, start, finish, texts, -, hlength, hform, hcall⟩
    have hsealed : ∀ t ∈ texts, Text.SealedFrom 0 t := by
      intro t ht
      obtain ⟨i, hi, rfl⟩ := List.mem_iff_getElem.1 ht
      have hi' : i < (stops.map (·.color)).length := by omega
      apply (hform i _ _ (List.getElem?_eq_getElem hi') (List.getElem?_eq_getElem hi)).sealed _ hoffset
      obtain ⟨s, hs, hcolor⟩ := List.mem_map.1 (List.getElem_mem hi')
      rw [← hcolor]
      exact hcolors s hs
    rw [write_eq] at hcall
    obtain ⟨-, -, rfl⟩ := call_inj (sealed_stopTexts hcolors) hsealed hcall
    intro i stop hstop
    have hstop' := hform i stop.color (stopText (stops.length - 1) i stop)
    rw [List.getElem?_map, getElem?_stopTexts, hstop, List.length_map] at hstop'
    exact hstop' rfl rfl
  · intro hform
    refine ⟨by simpa using hne, corners.start, corners.finish, stopTexts stops, hpoints,
      by simp [stopTexts], ?_, write_eq corners stops⟩
    intro i color text hcolor htext
    rw [getElem?_stopTexts, Option.map_eq_some_iff] at htext
    obtain ⟨stop, hstop, rfl⟩ := htext
    rw [List.getElem?_map, hstop] at hcolor
    obtain rfl := Option.some.inj hcolor
    rw [List.length_map]
    exact hform i stop hstop

/-- Whatever the offsets are, what stands for them is the text of a number. -/
theorem hasForm_display (hne : stops ≠ []) (hpoints : corners.start ≠ corners.finish)
    (hcolors : ∀ s ∈ stops, Text.SealedFrom 0 s.color) :
    HasForm (fun p => ∃ x : Binary64, p = x.display) (stops.map (·.color)) (write corners stops) := by
  rw [hasForm_write_iff hne hpoints hcolors]
  · intro i stop _
    exact stopForm_stopText ⟨_, rfl⟩
  · rintro p ⟨x, rfl⟩
    exact x.sealed_display

/-- The scan of numbers takes the offsets for numbers exactly if they are finite. -/
theorem hasForm_number_iff (hne : stops ≠ []) (hpoints : corners.start ≠ corners.finish)
    (hcolors : ∀ s ∈ stops, Text.SealedFrom 0 s.color) :
    HasForm (fun p => Number.lexeme p = some (p, [])) (stops.map (·.color)) (write corners stops) ↔
      ∀ s ∈ stops, (s.offset.getD 0).IsFinite := by
  rw [hasForm_write_iff hne hpoints hcolors fun p => Number.lexeme_sealed]
  simp only [Number.lexeme_self_iff, stopForm_isNumeral_iff]
  constructor
  · intro hfinite s hs
    obtain ⟨i, hi⟩ := List.mem_iff_getElem?.1 hs
    exact hfinite i s hi
  · intro hfinite i s hi
    exact hfinite s (List.mem_of_getElem? hi)

end Legacy

end LegacyGradient
