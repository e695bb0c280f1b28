/-
  LegacyGradient.Proofs.Placement.Pass

  The pass over the stops and the placement from the first stop to the last give the same offsets.
  The loops over the array are described by the list of its elements, cut where the loop works; the
  invariant of the pass (`Progress.At`) says that the settled stops come first and end with the
  last anchor, and that nothing is settled after it.
-/
import LegacyGradient.Proofs.Placement.Own
import LegacyGradient.Proofs.Placement.Reference

namespace LegacyGradient.Placement

variable {stops : List Stop} {offsets : Offsets} {pre post : List (Option Binary64)} {x start next : Binary64}
  {e : ConversionError}

/-! ## Single elements -/

theorem at_of_toList (h : offsets.toList = pre ++ some x :: post) : offsets.at pre.length = x := by
  rw [Offsets.at, ← Array.getElem?_toList, h, List.getElem?_append_right (Nat.le_refl _)]
  simp

theorem toList_set {o : Option Binary64} (h : offsets.toList = pre ++ o :: post)
    (o' : Option Binary64) : (offsets.setIfInBounds pre.length o').toList = pre ++ o' :: post := by
  rw [Array.toList_setIfInBounds, h, List.set_append_right _ _ (Nat.le_refl _), Nat.sub_self]
  rfl

/-! ## The loops -/

/-- The waiting stops are filled from the last to the first; the next one to be filled is as many
steps away as stops are left. -/
theorem toList_fillRun {step : Binary64} {width : Nat} {mid : List (Option Binary64)}
    (h : offsets.toList = pre ++ some start :: (mid ++ post)) (hmid : mid.length = width) :
    (fillRun start step pre.length width width offsets).toList =
      pre ++ some start :: ((List.range width).map (fun j =>
        some (roundToHundredth (start + step * .ofNat (j + 1)))) ++ post) := by
  -- the places behind `mid` are filled already, so the filled ones join `post`
  induction width generalizing offsets mid post with
  | zero =>
    obtain rfl := List.length_eq_zero_iff.1 hmid
    exact h
  | succ width ih =>
    obtain ⟨mid, o, rfl⟩ : ∃ mid' o, mid = mid' ++ [o] := by
      refine ⟨mid.dropLast, mid.getLast (by rintro rfl; contradiction), ?_⟩
      rw [List.dropLast_concat_getLast]
    rw [List.length_append, List.length_singleton, Nat.add_right_cancel_iff] at hmid
    have hset : offsets.toList = (pre ++ some start :: mid) ++ o :: post := by simp [h]
    have hindex : (pre ++ some start :: mid).length = pre.length + width + 1 := by
      simp [hmid]; omega
    have := toList_set hset (some (roundToHundredth (start + step * .ofNat (width + 1))))
    rw [hindex, List.append_assoc, List.cons_append] at this
    rw [fillRun, Nat.add_sub_cancel, ih this hmid, List.range_succ]
    simp

theorem toList_raiseRun {xs : List Binary64}
    (h : offsets.toList = pre ++ some x :: (xs.map some ++ post)) :
    (raiseRun pre.length xs.length offsets).toList =
      pre ++ some x :: ((raised x xs).map some ++ post) := by
  -- the raised element joins `pre`, and the next one is compared with it
  induction xs generalizing offsets pre x with
  | nil => exact h
  | cons y xs ih =>
    have hx := at_of_toList h
    have hnext : offsets.toList = (pre ++ [some x]) ++ some y :: (xs.map some ++ post) := by
      simp [h]
    have hindex : (pre ++ [some x]).length = pre.length + 1 := by simp
    have hy := at_of_toList hnext
    rw [hindex] at hy
    rw [List.length_cons, raiseRun, hx, hy, raised]
    have hraise : (if y < x then offsets.setIfInBounds (pre.length + 1) (some x)
        else offsets).toList = (pre ++ [some x]) ++ some (raise x y) :: (xs.map some ++ post) := by
      rw [raise]
      split
      · rw [← hindex]
        exact toList_set hnext (some x)
      · exact hnext
    have hrest := ih hraise
    rw [hindex] at hrest
    rw [hrest]
    simp

theorem toList_spread {mid : List (Option Binary64)} {waiting : Nat}
    (h : offsets.toList = pre ++ some start :: (mid ++ some next :: post))
    (hmid : mid.length = waiting) :
    (spread offsets pre.length (pre.length + waiting + 1) waiting).toList =
      pre ++ some start :: ((provisionals start next waiting).map some ++ some next :: post) := by
  have hnext : offsets.toList = (pre ++ some start :: mid) ++ some next :: post := by simp [h]
  have hindex : (pre ++ some start :: mid).length = pre.length + waiting + 1 := by
    simp [hmid]; omega
  have hat := at_of_toList hnext
  rw [hindex] at hat
  have hdistance : pre.length + waiting + 1 - pre.length = waiting + 1 := by omega
  rw [spread, hat, at_of_toList h, hdistance, Nat.add_sub_cancel, toList_fillRun h hmid,
    provisionals, List.map_map]
  rfl

/-! ## The pass -/

namespace Progress

/-- The stops in `done` and the anchor at `anchor` after them are settled, `waiting` stops wait,
and nothing is settled in the last `left` places. -/
structure At (p : Progress) (done : List Binary64) (anchor : Binary64) (waiting left : Nat) :
    Prop where
  /-- The offsets, those that are settled first. -/
  offsets : p.offsets.toList = done.map some ++ some anchor :: List.replicate left none
  /-- The anchor comes after all that are done. -/
  anchor : p.anchor = done.length
  /-- The number of the stops that wait. -/
  waiting : p.waiting = waiting

variable {p : Progress} {done : List Binary64} {anchor : Binary64} {waiting left : Nat}

/-- The next anchor takes its own offset, after the stops that wait. -/
theorem At.toList_set (next : Binary64) (h : p.At done anchor waiting (waiting + (left + 1))) :
    (p.offsets.setIfInBounds (done.length + waiting + 1) (some next)).toList =
      done.map some ++ some anchor ::
        (List.replicate waiting none ++ some next :: List.replicate left none) := by
  have hcut : p.offsets.toList = (done.map some ++ some anchor :: List.replicate waiting none) ++
      none :: List.replicate left none := by
    rw [h.offsets, ← List.replicate_append_replicate, List.replicate_succ]
    simp
  have := Placement.toList_set hcut (some next)
  rw [List.length_append, List.length_cons, List.length_replicate, List.length_map,
    ← Nat.add_assoc] at this
  simpa using this

/-- The stops that wait are spread, if there are any. -/
theorem toList_spread_waiting
    (h : offsets.toList = done.map some ++ some anchor ::
      (List.replicate waiting none ++ some next :: List.replicate left none)) :
    (if 0 < waiting then spread offsets done.length (done.length + waiting + 1) waiting
      else offsets).toList = done.map some ++ some anchor ::
        ((provisionals anchor next waiting ++ [next]).map some ++ List.replicate left none) := by
  have hdone : (done.map some).length = done.length := List.length_map ..
  split
  · have hspread := toList_spread h List.length_replicate
    rw [hdone] at hspread
    rw [hspread]
    simp
  · next hwaiting =>
    obtain rfl : waiting = 0 := by omega
    simpa [provisionals] using h

theorem At.settle (next : Binary64) (h : p.At done anchor waiting (waiting + (left + 1))) :
    (p.settle (done.length + waiting + 1) next).At
      (done ++ anchor :: raised anchor (provisionals anchor next waiting))
      (anchorAfter anchor next waiting) 0 left := by
  have hraise := toList_raiseRun (toList_spread_waiting (h.toList_set next))
  refine ⟨?_, by simp [Progress.settle]; omega, rfl⟩
  have hwidth : done.length + waiting + 1 - done.length =
      (provisionals anchor next waiting ++ [next]).length := by
    simp
    omega
  rw [Progress.settle, h.anchor, h.waiting, hwidth]
  rw [List.length_map, ← run_eq_raised, run] at hraise
  rw [hraise]
  simp

/-- A stop with an offset of its own is the next anchor; without one it waits. -/
def take (p : Progress) (stop : Option Binary64 × Nat) : Progress :=
  match stop.1 with
  | some offset => p.settle stop.2 offset
  | none => { p with waiting := p.waiting + 1 }

/-- The pass over stops after an anchor settles them as they are settled from the first to the
last. -/
theorem At.foldl_take (own : List (Option Binary64)) (h : p.At done anchor waiting left)
    (hleft : waiting + own.length ≤ left) :
    ((own.zipIdx (done.length + waiting + 1)).foldl take p).offsets.toList =
      (done ++ anchor :: settledFrom anchor waiting own).map some ++
        List.replicate (left - (settledFrom anchor waiting own).length) none := by
  -- the invariant is `At`; a stop that waits only changes the counter
  induction own generalizing p done anchor waiting left with
  | nil => simpa [settledFrom] using h.offsets
  | cons o own ih =>
    rw [List.length_cons] at hleft
    rw [List.zipIdx_cons, List.foldl_cons]
    cases o with
    | none =>
      have hnext : (p.take (none, done.length + waiting + 1)).At done anchor (waiting + 1) left :=
        ⟨h.offsets, h.anchor, by simp [take, h.waiting]⟩
      rw [settledFrom]
      exact ih hnext (by omega)
    | some x =>
      obtain ⟨left, rfl⟩ : ∃ left', left = waiting + (left' + 1) := ⟨left - (waiting + 1), by omega⟩
      have hnext := h.settle x
      -- the indices go on where the settled stops end
      have hfold := ih hnext (by omega)
      have hindex : (done ++ anchor :: raised anchor (provisionals anchor x waiting)).length + 0 + 1 =
          done.length + waiting + 1 + 1 := by
        simp
        omega
      rw [hindex] at hfold
      rw [take, hfold, settledFrom, run]
      have hcount : left - (settledFrom (anchorAfter anchor x waiting) 0 own).length =
          waiting + (left + 1) - (run anchor x waiting ++
            settledFrom (anchorAfter anchor x waiting) 0 own).length := by
        rw [List.length_append, length_run]
        omega
      rw [hcount, run]
      simp

/-- The pass is the one over the own offsets of the stops, and has no other errors. -/
theorem foldlM_advance (last : Nat) (stops : List Stop) (i : Nat) (p : Progress) :
    (stops.zipIdx i).foldlM (advance last) p =
      ((stops.zipIdx i).mapM fun stop => ownOffset last stop.2 stop.1).map fun own =>
        (own.zipIdx i).foldl take p := by
  induction stops generalizing i p with
  | nil => rfl
  | cons stop stops ih =>
    rw [List.zipIdx_cons, List.foldlM_cons, List.mapM_cons]
    cases hown : ownOffset last i stop with
    | error e => simp only [advance, hown, bind, Except.bind, Except.map]
    | ok o =>
      have hstep : advance last p (stop, i) = .ok (p.take (o, i)) := by
        simp only [advance, hown, bind, Except.bind, pure, Except.pure, take]
        cases o <;> rfl
      rw [hstep]
      simp only [bind, Except.bind, ih, pure, Except.pure]
      cases (stops.zipIdx (i + 1)).mapM fun stop => ownOffset last stop.2 stop.1 <;> rfl

theorem at_start (first : Binary64) (n : Nat) :
    ((Progress.start (n + 1)).take (some first, 0)).At [] first 0 n where
  offsets := by simp [take, settle, Progress.start, raiseRun, List.replicate_succ]
  anchor := rfl
  waiting := rfl

end Progress

/-- The pass leaves the offsets that the stops get from the first to the last. -/
theorem toList_foldl_take {own : List (Option Binary64)} (hfirst : own.head? ≠ some none)
    (hlast : own.getLast? ≠ some none) :
    (own.zipIdx.foldl Progress.take (.start own.length)).offsets.toList =
      (settled own).map some := by
  cases own with
  | nil => rfl
  | cons o own =>
    cases o with
    | none => exact absurd rfl hfirst
    | some first =>
      have hlength := length_settled hfirst hlast
      rw [settled, List.length_cons, List.length_cons, Nat.add_right_cancel_iff] at hlength
      have hfold := (Progress.at_start first own.length).foldl_take own (by omega)
      rw [hlength, Nat.sub_self, List.replicate_zero, List.append_nil] at hfold
      exact hfold

/-- The placement of all stops, from the offsets that they have by themselves. -/
theorem place_eq (stops : List Stop) :
    place stops = (ownOffsets stops).map fun own =>
      List.zipWith (fun stop offset => { stop with offset := some offset }) stops (settled own) := by
  simp only [place, Progress.foldlM_advance]
  rw [← ownOffsets]
  cases hown : ownOffsets stops with
  | error e => rfl
  | ok own =>
    have := toList_foldl_take (head?_own_ne_none hown) (getLast?_own_ne_none hown)
    rw [length_of_ownOffsets hown] at this
    simp only [Except.map, bind, Except.bind, pure, Except.pure, this, List.zipWith_map_right]

theorem length_settled_own {own : List (Option Binary64)} (h : ownOffsets stops = .ok own) :
    (settled own).length = stops.length := by
  rw [length_settled (head?_own_ne_none h) (getLast?_own_ne_none h), length_of_ownOffsets h]

/-- The placement leaves the stops as they are. -/
theorem map_toStop_of_place {placed : List PlacedStop} (h : place stops = .ok placed) :
    placed.map PlacedStop.toStop = stops := by
  rw [place_eq] at h
  cases hown : ownOffsets stops with
  | error e => rw [hown] at h; contradiction
  | ok own =>
    have hlength := length_settled_own hown
    rw [hown] at h
    obtain rfl := Except.ok.inj h
    apply List.ext_getElem
    · simp [hlength]
    · intro i hi hi'
      simp

/-- The placement refuses the first stop whose position is no percentage, and nothing else. -/
theorem place_eq_error_iff :
    place stops = .error e ↔
      ∃ before stop after position, stops = before ++ stop :: after ∧
        (∀ s ∈ before, ¬ s.Misplaced) ∧ stop.position = some position ∧
        Percentage.ofText? position = none ∧ e = .nonPercentagePosition stop.color position := by
  have hplace : place stops = .error e ↔ ownOffsets stops = .error e := by
    rw [place_eq]
    cases ownOffsets stops <;> simp [Except.map]
  rw [hplace, ownOffsets, mapM_eq_error_iff]
  constructor
  · rintro ⟨before, ⟨stop, i⟩, after, happend, hbefore, hstop⟩
    obtain ⟨position, hposition, hnone, rfl⟩ := ownOffset_eq_error_iff.1 hstop
    refine ⟨before.map Prod.fst, stop, after.map Prod.fst, position, ?_, ?_, hposition, hnone, rfl⟩
    · have := congrArg (List.map Prod.fst) happend
      simpa using this
    · intro s hs
      obtain ⟨⟨s, j⟩, hmem, rfl⟩ := List.mem_map.1 hs
      exact exists_ownOffset_iff.1 (hbefore _ hmem)
  · rintro ⟨before, stop, after, position, rfl, hbefore, hposition, hnone, rfl⟩
    refine ⟨before.zipIdx, (stop, before.length), after.zipIdx (before.length + 1), ?_, ?_, ?_⟩
    · rw [List.zipIdx_append, List.zipIdx_cons, Nat.zero_add]
    · rintro ⟨s, j⟩ hmem
      exact exists_ownOffset_iff.2 (hbefore s (List.fst_mem_of_mem_zipIdx hmem))
    · exact ownOffset_eq_error_iff.2 ⟨position, hposition, hnone, rfl⟩

/-- The offset of the stop at an index, if there is one. -/
def offsetAt (placed : List PlacedStop) (i : Nat) : Option Binary64 := placed[i]?.bind (·.offset)

/-- A placement that succeeds gives every stop the offset that it gets from the first to the
last. -/
theorem exists_settled_of_place {stops : List Stop} {placed : List PlacedStop}
    (h : place stops = .ok placed) :
    ∃ own, ownOffsets stops = .ok own ∧ placed.length = stops.length ∧
      (settled own).length = stops.length ∧ ∀ i, offsetAt placed i = (settled own)[i]? := by
  rw [place_eq] at h
  cases hown : ownOffsets stops with
  | error e => rw [hown] at h; contradiction
  | ok own =>
    have hlength := length_settled_own hown
    rw [hown] at h
    obtain rfl := Except.ok.inj h
    refine ⟨own, rfl, by simp [hlength], hlength, fun i => ?_⟩
    rw [offsetAt, List.getElem?_zipWith]
    by_cases hi : i < stops.length
    · rw [List.getElem?_eq_getElem hi, List.getElem?_eq_getElem (hlength.symm ▸ hi)]
      rfl
    · rw [List.getElem?_eq_none (Nat.not_lt.1 hi), List.getElem?_eq_none (hlength.symm ▸ Nat.not_lt.1 hi)]
      rfl

end LegacyGradient.Placement
