/-
  LegacyGradient.Proofs.Placement.Stepwise

  The rules of the placement, stop by stop. `Stepwise` says of a list of offsets that the first stop
  lies at its own offset, and that each later stop lies at its own or its provisional offset, or at
  its predecessor if that is further on. Anchors and own offsets are read off the stops as they are
  written. The rules leave nothing open (`Stepwise.unique`), and the pass follows them
  (`place_eq_ok_iff`).
-/
import LegacyGradient.Proofs.Placement.Anchors
import Mathlib.Order.WellFounded

namespace LegacyGradient.Placement

variable {stops : List Stop} {stop : Stop} {placed : List PlacedStop} {own : List (Option Binary64)}
  {offsets offsets' xs : List Binary64} {last f t i j : Nat} {start next previous x y : Binary64}

/-! ## The rules -/

/-- The rule for the offset that a stop has by itself, from its position. -/
inductive OwnRule (last i : Nat) : Option Text → Binary64 → Prop where
  /-- A position is a number of hundredths. -/
  | written {position : Text} {percentage : Binary64}
      (h : Percentage.ofText? position = some percentage) :
      OwnRule last i (some position) (percentage / 100)
  /-- The first stop lies at the start of the line. -/
  | first (hi : i = 0) : OwnRule last i none 0
  /-- The last stop, if it is another, lies at the end of the line. -/
  | last (hi : i ≠ 0) (hlast : i = last) : OwnRule last i none 1

/-- The stop at an index has the offset `x` by itself. -/
def HasOwn (stops : List Stop) (i : Nat) (x : Binary64) : Prop :=
  ∃ stop, stops[i]? = some stop ∧ OwnRule (stops.length - 1) i stop.position x

/-- The stop at an index anchors others: it has a position, or it is the first or the last one. -/
def IsAnchor (stops : List Stop) (i : Nat) : Prop :=
  ∃ stop, stops[i]? = some stop ∧ (stop.position.isSome ∨ i = 0 ∨ i = stops.length - 1)

/-- The stops at two indices are anchors, and those between them are none. -/
def Adjacent (stops : List Stop) (f t : Nat) : Prop :=
  f < t ∧ IsAnchor stops f ∧ IsAnchor stops t ∧ ∀ k, f < k → k < t → ¬ IsAnchor stops k

/-- The offsets of stops that are settled one after the other. -/
structure Stepwise (stops : List Stop) (offsets : List Binary64) : Prop where
  /-- Every stop has an offset. -/
  length : offsets.length = stops.length
  /-- The first anchor lies at its own offset. -/
  first : ∀ own, HasOwn stops 0 own → offsets[0]? = some own
  /-- From an anchor to the next one, every stop lies at its provisional offset, and the anchor at
  its own, unless that is less than the offset in front, which then takes its place. -/
  next : ∀ f t start own, Adjacent stops f t → offsets[f]? = some start → HasOwn stops t own →
    ∀ i, f < i → i ≤ t → ∃ previous, offsets[i - 1]? = some previous ∧
      offsets[i]? = some
        (raise previous (if i = t then own else provisional start own (t - f) (i - f)))

/-! ## Anchors and own offsets -/

theorem ownOffset_eq_some_iff :
    ownOffset last i stop = .ok (some x) ↔ OwnRule last i stop.position x := by
  cases hposition : stop.position with
  | some position =>
    cases hpercentage : Percentage.ofText? position with
    | some percentage =>
      simp only [ownOffset, hposition, hpercentage, Except.ok.injEq, Option.some.injEq]
      constructor
      · rintro rfl
        exact .written hpercentage
      · rintro ⟨h⟩
        obtain rfl := Option.some.inj (hpercentage.symm.trans h)
        rfl
    | none =>
      simp only [ownOffset, hposition, hpercentage, reduceCtorEq, false_iff]
      rintro ⟨h⟩
      rw [hpercentage] at h
      contradiction
  | none =>
    simp only [ownOffset, hposition, Except.ok.injEq]
    constructor
    · intro h
      by_cases hi : i = 0
      · rw [if_pos hi] at h
        obtain rfl := Option.some.inj h
        exact .first hi
      · rw [if_neg hi] at h
        by_cases hlast : i = last
        · rw [if_pos hlast] at h
          obtain rfl := Option.some.inj h
          exact .last hi hlast
        · rw [if_neg hlast] at h
          contradiction
    · rintro (_ | hi | ⟨hi, hlast⟩)
      · rw [if_pos hi]
      · rw [if_neg hi, if_pos hlast]

theorem hasOwn_iff : HasOwn stops i x ↔ IsOwn stops i x := by
  simp only [HasOwn, IsOwn, ownOffset_eq_some_iff]

theorem HasOwn.isAnchor (h : HasOwn stops i x) : IsAnchor stops i := by
  obtain ⟨stop, hstop, hrule⟩ := h
  refine ⟨stop, hstop, ?_⟩
  generalize stop.position = position at hrule
  cases hrule with
  | written => exact .inl rfl
  | first hi => exact .inr (.inl hi)
  | last hi hlast => exact .inr (.inr hlast)

/-- If every position is a percentage, all anchors have an offset by themselves. -/
theorem IsAnchor.exists_hasOwn (h : IsAnchor stops i) (hplaced : ∀ s ∈ stops, ¬ s.Misplaced) :
    ∃ x, HasOwn stops i x := by
  obtain ⟨stop, hstop, hanchor⟩ := h
  cases hposition : stop.position with
  | some position =>
    cases hpercentage : Percentage.ofText? position with
    | some percentage => exact ⟨percentage / 100, stop, hstop, hposition ▸ .written hpercentage⟩
    | none =>
      exact absurd ⟨position, hposition, hpercentage⟩ (hplaced stop (List.mem_of_getElem? hstop))
  | none =>
    by_cases hi : i = 0
    · exact ⟨0, stop, hstop, hposition ▸ .first hi⟩
    · have hlast : i = stops.length - 1 := by simpa [hposition, hi] using hanchor
      exact ⟨1, stop, hstop, hposition ▸ .last hi hlast⟩

theorem Adjacent.nextAnchor (h : Adjacent stops f t) (hplaced : ∀ s ∈ stops, ¬ s.Misplaced) :
    NextAnchor stops f t := by
  obtain ⟨hft, hf, ht, hbetween⟩ := h
  obtain ⟨x, hx⟩ := hf.exists_hasOwn hplaced
  obtain ⟨y, hy⟩ := ht.exists_hasOwn hplaced
  refine ⟨hft, ⟨x, hasOwn_iff.1 hx⟩, ⟨y, hasOwn_iff.1 hy⟩, fun k hk hkt z hz => ?_⟩
  exact hbetween k hk hkt (hasOwn_iff.2 hz).isAnchor

/-- Every stop but the first stands behind an anchor, and no later than at the next one. -/
theorem exists_adjacent (hpos : 0 < i) (hi : i < stops.length) :
    ∃ f t, Adjacent stops f t ∧ f < i ∧ i ≤ t := by
  have hfirst : IsAnchor stops 0 :=
    ⟨_, List.getElem?_eq_getElem (Nat.zero_lt_of_lt hi), .inr (.inl rfl)⟩
  have hlast : IsAnchor stops (stops.length - 1) :=
    ⟨_, List.getElem?_eq_getElem (by omega), .inr (.inr rfl)⟩
  obtain ⟨f, hfi, hf, hbefore⟩ := exists_last_before hfirst hpos
  obtain ⟨t, ⟨hit, ht⟩, hleast⟩ := wellFounded_lt.has_min {t | i ≤ t ∧ IsAnchor stops t}
    ⟨stops.length - 1, by omega, hlast⟩
  refine ⟨f, t, ⟨Nat.lt_of_lt_of_le hfi hit, hf, ht, fun k hfk hkt hk => ?_⟩, hfi, hit⟩
  rcases Nat.lt_or_ge k i with hki | hik
  · exact hbefore k hfk hki hk
  · exact hleast k ⟨hik, hk⟩ hkt

/-! ## The rules leave nothing open -/

theorem Stepwise.unique (h : Stepwise stops offsets) (h' : Stepwise stops offsets')
    (hplaced : ∀ s ∈ stops, ¬ s.Misplaced) : offsets = offsets' := by
  refine List.ext_getElem? fun i => ?_
  -- the anchor in front and the predecessor are the same in both lists
  induction i using Nat.strongRecOn with
  | ind i ih =>
    by_cases hi : i < stops.length
    · rcases Nat.eq_zero_or_pos i with rfl | hpos
      · have hfirst : IsAnchor stops 0 := ⟨_, List.getElem?_eq_getElem hi, .inr (.inl rfl)⟩
        obtain ⟨x, hx⟩ := hfirst.exists_hasOwn hplaced
        rw [h.first x hx, h'.first x hx]
      · obtain ⟨f, t, hadjacent, hfi, hit⟩ := exists_adjacent hpos hi
        obtain ⟨own, hown⟩ := hadjacent.2.2.1.exists_hasOwn hplaced
        have hflength : f < offsets.length := by
          rw [h.length]
          omega
        have hf : offsets[f]? = some offsets[f] := List.getElem?_eq_getElem hflength
        obtain ⟨y, hy, hstop⟩ := h.next f t _ own hadjacent hf hown i hfi hit
        obtain ⟨y', hy', hstop'⟩ := h'.next f t _ own hadjacent (ih f hfi ▸ hf) hown i hfi hit
        rw [ih (i - 1) (by omega), hy'] at hy
        obtain rfl := Option.some.inj hy
        rw [hstop, hstop']
    · rw [List.getElem?_eq_none (by rw [h.length]; omega),
        List.getElem?_eq_none (by rw [h'.length]; omega)]

/-! ## The placement follows them -/

/-- Each offset of a raised run comes from the one in front. -/
theorem getElem?_raised (hprevious : (previous :: raised previous xs)[j]? = some y)
    (hx : xs[j]? = some x) : (raised previous xs)[j]? = some (raise y x) := by
  induction xs generalizing previous j with
  | nil => contradiction
  | cons x' xs ih =>
    cases j with
    | zero =>
      obtain rfl := Option.some.inj hprevious
      obtain rfl := Option.some.inj hx
      rfl
    | succ j => exact ih hprevious hx

/-- In a run the stops that wait come from their provisional offsets, and the anchor at its end from
its own. -/
theorem exists_getElem?_run (start next : Binary64) {waiting : Nat} (hj : j ≤ waiting) :
    ∃ y, (start :: run start next waiting)[j]? = some y ∧
      (run start next waiting)[j]? = some
        (raise y (if j = waiting then next else provisional start next (waiting + 1) (j + 1))) := by
  have hoffset : (provisionals start next waiting ++ [next])[j]? =
      some (if j = waiting then next else provisional start next (waiting + 1) (j + 1)) := by
    rcases Nat.lt_or_eq_of_le hj with hlt | rfl
    · rw [List.getElem?_append_left (by simpa using hlt), if_neg (Nat.ne_of_lt hlt), provisionals,
        List.getElem?_map, List.getElem?_range hlt]
      rfl
    · rw [List.getElem?_append_right (by simp), if_pos rfl, length_provisionals, Nat.sub_self]
      rfl
  obtain ⟨y, hy⟩ : ∃ y, (start :: run start next waiting)[j]? = some y :=
    ⟨_, List.getElem?_eq_getElem (by rw [List.length_cons, length_run]; omega)⟩
  rw [run_eq_raised] at hy ⊢
  exact ⟨y, hy, getElem?_raised hy hoffset⟩

theorem stepwise_settled (hown : ownOffsets stops = .ok own)
    (hplaced : ∀ s ∈ stops, ¬ s.Misplaced) : Stepwise stops (settled own) where
  length := length_settled_own hown
  first x hx := settled_zero ((isOwn_iff hown).1 (hasOwn_iff.1 hx))
  next f t start next hadjacent hstart hnext i hfi hit := by
    obtain ⟨done, rest, rfl, hsettled⟩ := exists_settled_run hown
      (hadjacent.nextAnchor hplaced) hstart (hasOwn_iff.1 hnext)
    -- the stop is the one at index `j` of the run
    obtain ⟨j, rfl⟩ : ∃ j, i = done.length + (j + 1) := ⟨i - done.length - 1, by omega⟩
    have hj : j ≤ t - done.length - 1 := by omega
    obtain ⟨y, hy, hstop⟩ := exists_getElem?_run start next hj
    have hlength : (run start next (t - done.length - 1)).length = t - done.length := by
      rw [length_run]
      omega
    have hlast : j = t - done.length - 1 ↔ done.length + (j + 1) = t := by omega
    have hdistance : t - done.length - 1 + 1 = t - done.length := by omega
    have hprevious : done.length + (j + 1) - 1 = done.length + j := by omega
    rw [hprevious, hsettled, List.getElem?_append_right (by omega), Nat.add_sub_cancel_left,
      List.getElem?_append_right (by omega), Nat.add_sub_cancel_left, List.getElem?_cons_succ,
      ← List.cons_append, List.getElem?_append_left (by rw [List.length_cons]; omega),
      List.getElem?_append_left (by omega)]
    simp only [hlast, hdistance] at hstop
    exact ⟨y, hy, hstop⟩

/-- A placed stop is a stop and its offset. -/
theorem eq_of_map_eq {placed' : List PlacedStop}
    (hstops : placed.map PlacedStop.toStop = placed'.map PlacedStop.toStop)
    (hoffsets : placed.map PlacedStop.offset = placed'.map PlacedStop.offset) :
    placed = placed' := by
  induction placed generalizing placed' with
  | nil => exact (List.map_eq_nil_iff.1 hstops.symm).symm
  | cons p placed ih =>
    obtain ⟨p', placed', rfl, hstop, hrest⟩ := List.map_eq_cons_iff.1 hstops.symm
    rw [List.map_cons, List.map_cons] at hoffsets
    obtain ⟨hoffset, hoffsets'⟩ := List.cons.inj hoffsets
    obtain ⟨stop, offset⟩ := p
    obtain ⟨stop', offset'⟩ := p'
    obtain rfl : stop' = stop := hstop
    obtain rfl : offset = offset' := hoffset
    rw [ih hrest.symm hoffsets']

theorem exists_map_offset_of_place (h : place stops = .ok placed) :
    ∃ own, ownOffsets stops = .ok own ∧
      placed.map PlacedStop.offset = (settled own).map some := by
  rw [place_eq] at h
  cases hown : ownOffsets stops with
  | error e => rw [hown] at h; contradiction
  | ok own =>
    have hlength := length_settled_own hown
    rw [hown] at h
    obtain rfl := Except.ok.inj h
    refine ⟨own, rfl, List.ext_getElem ?_ fun i hi hi' => ?_⟩
    · simp [hlength]
    · simp

theorem not_misplaced_of_place (h : place stops = .ok placed) : ∀ s ∈ stops, ¬ s.Misplaced := by
  intro s hs hmisplaced
  obtain ⟨own, hown, -⟩ := exists_map_offset_of_place h
  obtain ⟨i, hi⟩ := List.mem_iff_getElem?.1 hs
  obtain ⟨o, ho, -⟩ := ownOffset_of_ownOffsets hown hi
  exact exists_ownOffset_iff.1 ⟨o, ho⟩ hmisplaced

theorem exists_place_of_not_misplaced (h : ∀ s ∈ stops, ¬ s.Misplaced) :
    ∃ placed, place stops = .ok placed := by
  cases hplace : place stops with
  | ok placed => exact ⟨placed, rfl⟩
  | error e =>
    obtain ⟨before, stop, after, position, rfl, -, hposition, hnone, -⟩ :=
      place_eq_error_iff.1 hplace
    exact absurd ⟨position, hposition, hnone⟩ (h stop (by simp))

/-- The stops of a placement are those of the list, in order, and their offsets are those of the
rules. Every list of stops whose positions are percentages has one placement, and it has no
other. -/
theorem place_eq_ok_iff (stops : List Stop) (placed : List PlacedStop) :
    place stops = .ok placed ↔
      (∀ s ∈ stops, ¬ s.Misplaced) ∧ placed.map PlacedStop.toStop = stops ∧
        ∃ offsets, placed.map PlacedStop.offset = offsets.map some ∧ Stepwise stops offsets := by
  have hfollows : ∀ {placed}, place stops = .ok placed →
      ∃ offsets, placed.map PlacedStop.offset = offsets.map some ∧ Stepwise stops offsets := by
    intro placed h
    obtain ⟨own, hown, hoffsets⟩ := exists_map_offset_of_place h
    exact ⟨settled own, hoffsets, stepwise_settled hown (not_misplaced_of_place h)⟩
  constructor
  · intro h
    exact ⟨not_misplaced_of_place h, map_toStop_of_place h, hfollows h⟩
  · rintro ⟨hplaced, hstops, offsets, hoffsets, hstepwise⟩
    obtain ⟨placed', h⟩ := exists_place_of_not_misplaced hplaced
    obtain ⟨offsets', hoffsets', hstepwise'⟩ := hfollows h
    have hsame := hstepwise.unique hstepwise' hplaced
    have hstops' := (map_toStop_of_place h).trans hstops.symm
    rw [h, eq_of_map_eq hstops' (by rw [hoffsets, hoffsets', hsame])]

end LegacyGradient.Placement
