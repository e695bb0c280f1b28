/-
  LegacyGradient.Proofs.Placement.Checked

  The bookkeeping of the pass never goes wrong. The pass works on unsigned numbers and on an array
  that answers zero for an offset that is absent, so a stale anchor or a wrong count would not show.
  Here is the same pass with every step guarded: each read needs an index in range and an offset at
  it, each write an index in range, each subtraction room for it, and spreading needs exactly the
  stops that wait between the two anchors. What is guarded goes through as soon as the list of the
  offsets has the shape that the invariant of the pass gives it, so no guard ever fails
  (`checked_place`).
-/
import LegacyGradient.Proofs.Placement.Pass

namespace LegacyGradient.Placement

namespace Checked

/-! ## Guards -/

/-- What could go wrong in the bookkeeping. -/
inductive Fault where
  /-- An index is not in range. -/
  | outOfRange
  /-- The offset that is read is absent. -/
  | absent
  /-- The second anchor does not lie behind the first one. -/
  | noDistance
  /-- The number of stops that wait is not the number of those between the anchors. -/
  | miscounted
  /-- A stop between the anchors is settled before it is filled. -/
  | settledBefore
  /-- A stop between the anchors is absent after all are filled. -/
  | absentAfter
  /-- A stop is filled although none remains. -/
  | noneRemains
  /-- Stops remain after all are filled. -/
  | someRemain
deriving DecidableEq

/-- Why the guarded pass stops before its end. -/
inductive Halt where
  /-- A stop is refused, as it is without guards. -/
  | refused (e : ConversionError)
  /-- A guard fails. -/
  | fault (f : Fault)
deriving DecidableEq

/-- Goes on if a condition holds. -/
def require (condition : Prop) [Decidable condition] (fault : Fault) : Except Halt Unit :=
  if condition then .ok () else .error (.fault fault)

/-- The offset at an index. -/
def read (offsets : Offsets) (i : Nat) : Except Halt Binary64 :=
  match offsets[i]? with
  | none => .error (.fault .outOfRange)
  | some none => .error (.fault .absent)
  | some (some x) => .ok x

/-- Settles the offset at an index. -/
def write (offsets : Offsets) (i : Nat) (x : Binary64) : Except Halt Offsets := do
  require (i < offsets.size) .outOfRange
  return offsets.setIfInBounds i (some x)

/-! ## The guarded pass -/

/-- Fills the `width` places after `anchor`, the last one first. -/
def fillRun (start step : Binary64) (anchor : Nat) :
    (width remaining : Nat) → Offsets → Except Halt Offsets
  | 0, remaining, offsets => do
    require (remaining = 0) .someRemain
    return offsets
  | width + 1, remaining, offsets => do
    let offsets ← write offsets (anchor + width + 1)
      (roundToHundredth (start + step * .ofNat remaining))
    require (1 ≤ remaining) .noneRemains
    fillRun start step anchor width (remaining - 1) offsets

/-- Spreads the `waiting` stops between the anchors at two indices. -/
def spread (offsets : Offsets) (anchor next waiting : Nat) : Except Halt Offsets := do
  require (anchor < next) .noDistance
  require (waiting = next - anchor - 1) .miscounted
  require (∀ j < next, anchor < j → offsets[j]? = some none) .settledBefore
  let start ← read offsets anchor
  let stop ← read offsets next
  let step := ((stop - start) / .ofNat (next - anchor)).atLeastZero
  let filled ← fillRun start step anchor (next - anchor - 1) waiting offsets
  require (∀ j < next, anchor < j → filled[j]?.join.isSome) .absentAfter
  return filled

/-- Moves each of the `width` stops after index `i` up to its predecessor where it lies before
it. -/
def raiseRun (i : Nat) : (width : Nat) → Offsets → Except Halt Offsets
  | 0, offsets => return offsets
  | width + 1, offsets => do
    let previous ← read offsets i
    let x ← read offsets (i + 1)
    let offsets ← if x < previous then write offsets (i + 1) previous else pure offsets
    raiseRun (i + 1) width offsets

/-- Makes the stop at index `i` the next anchor, and settles all stops up to it. -/
def settle (p : Progress) (i : Nat) (offset : Binary64) : Except Halt Progress := do
  let offsets ← write p.offsets i offset
  let offsets ← if 0 < p.waiting then spread offsets p.anchor i p.waiting else pure offsets
  -- only at the first stop there is no earlier anchor, and nothing to be raised
  require (p.anchor < i ∨ p.anchor = 0 ∧ i = 0) .noDistance
  let offsets ← raiseRun p.anchor (i - p.anchor) offsets
  return { offsets, anchor := i, waiting := 0 }

/-- Takes up the stop at index `i`, which anchors or waits. -/
def advance (last : Nat) (p : Progress) (stop : Stop × Nat) : Except Halt Progress := do
  match ← (ownOffset last stop.2 stop.1).mapError .refused with
  | some offset => settle p stop.2 offset
  | none => return { p with waiting := p.waiting + 1 }

/-- Places every stop of a list, with all guards. -/
def place (stops : List Stop) : Except Halt (List PlacedStop) := do
  let p ← stops.zipIdx.foldlM (advance (stops.length - 1)) (.start stops.length)
  return List.zipWith (fun stop offset => { stop with offset }) stops p.offsets.toList

/-! ## The guards of single steps -/

variable {offsets : Offsets} {pre post : List (Option Binary64)} {o : Option Binary64}
  {x start next : Binary64} {waiting : Nat} {fault : Fault}

theorem require_pos {condition : Prop} [Decidable condition] (h : condition) :
    require condition fault = .ok () :=
  if_pos h

theorem read_eq (h : offsets.toList = pre ++ some x :: post) : read offsets pre.length = .ok x := by
  have hread : offsets[pre.length]? = some (some x) := by
    rw [← Array.getElem?_toList, h, List.getElem?_append_right (Nat.le_refl _), Nat.sub_self]
    rfl
  rw [read, hread]

theorem lt_size (h : offsets.toList = pre ++ o :: post) : pre.length < offsets.size := by
  rw [← Array.length_toList, h]
  simp

theorem write_eq {i : Nat} (h : i < offsets.size) (x : Binary64) :
    write offsets i x = .ok (offsets.setIfInBounds i (some x)) := by
  rw [write, require_pos h]
  rfl

/-! ## The guards of the loops -/

theorem fillRun_eq {step : Binary64} {width : Nat} {mid : List (Option Binary64)}
    (h : offsets.toList = pre ++ some start :: (mid ++ post)) (hmid : mid.length = width) :
    fillRun start step pre.length width width offsets =
      .ok (Placement.fillRun start step pre.length width width offsets) := by
  -- as many stops remain as there are places in `mid`
  induction width generalizing offsets mid post with
  | zero => rfl
  | succ width ih =>
    obtain ⟨mid, o, rfl⟩ : ∃ mid' o, mid = mid' ++ [o] := by
      refine ⟨mid.dropLast, mid.getLast (by rintro rfl; contradiction), ?_⟩
      rw [List.dropLast_concat_getLast]
    rw [List.length_append, List.length_singleton, Nat.add_right_cancel_iff] at hmid
    have hcut : offsets.toList = (pre ++ some start :: mid) ++ o :: post := by simp [h]
    have hindex : (pre ++ some start :: mid).length = pre.length + width + 1 := by
      simp [hmid]; omega
    have hwrite := write_eq (lt_size hcut) (roundToHundredth (start + step * .ofNat (width + 1)))
    have hset := toList_set hcut (some (roundToHundredth (start + step * .ofNat (width + 1))))
    rw [hindex] at hwrite hset
    rw [List.append_assoc, List.cons_append] at hset
    rw [fillRun, hwrite, require_pos (Nat.le_add_left 1 width), Placement.fillRun]
    exact ih hset hmid

theorem raiseRun_eq {xs : List Binary64}
    (h : offsets.toList = pre ++ some x :: (xs.map some ++ post)) :
    raiseRun pre.length xs.length offsets =
      .ok (Placement.raiseRun pre.length xs.length offsets) := by
  induction xs generalizing offsets pre x with
  | nil => rfl
  | cons y xs ih =>
    have hnext : offsets.toList = (pre ++ [some x]) ++ some y :: (xs.map some ++ post) := by
      simp [h]
    have hindex : (pre ++ [some x]).length = pre.length + 1 := by simp
    have hread := read_eq hnext
    have hat := at_of_toList hnext
    have hwrite := write_eq (lt_size hnext) x
    have hrest : ∀ {offsets : Offsets} {z : Binary64},
        offsets.toList = (pre ++ [some x]) ++ some z :: (xs.map some ++ post) →
          raiseRun (pre.length + 1) xs.length offsets =
            .ok (Placement.raiseRun (pre.length + 1) xs.length offsets) :=
      fun hlist => hindex ▸ ih hlist
    have hset := toList_set hnext (some x)
    rw [hindex] at hread hat hwrite hset
    rw [List.length_cons, raiseRun, Placement.raiseRun, read_eq h, hread, at_of_toList h, hat]
    by_cases hlt : y < x
    · simp only [bind, Except.bind, if_pos hlt, hwrite]
      exact hrest hset
    · simp only [bind, Except.bind, if_neg hlt]
      exact hrest hnext

/-- What stands at an index between two anchors. -/
theorem exists_mem_between {mid : List (Option Binary64)} {j : Nat}
    (h : offsets.toList = pre ++ some start :: (mid ++ some next :: post))
    (hpos : pre.length < j) (hj : j < pre.length + mid.length + 1) :
    ∃ o ∈ mid, offsets[j]? = some o := by
  have hmid : j - pre.length - 1 < mid.length := by omega
  refine ⟨mid[j - pre.length - 1], List.getElem_mem _, ?_⟩
  rw [← Array.getElem?_toList, h, List.getElem?_append_right (by omega), List.getElem?_cons,
    if_neg (by omega), List.getElem?_append_left hmid, List.getElem?_eq_getElem hmid]

/-- If all offsets between two anchors are absent and their number is `waiting`, every guard
holds. -/
theorem spread_eq
    (h : offsets.toList = pre ++ some start ::
      (List.replicate waiting none ++ some next :: post)) :
    spread offsets pre.length (pre.length + waiting + 1) waiting =
      .ok (Placement.spread offsets pre.length (pre.length + waiting + 1) waiting) := by
  have hcut : offsets.toList = (pre ++ some start :: List.replicate waiting none) ++
      some next :: post := by simp [h]
  have hindex : (pre ++ some start :: List.replicate waiting none).length =
      pre.length + waiting + 1 := by
    simp; omega
  have hread := read_eq hcut
  have hat := at_of_toList hcut
  rw [hindex] at hread hat
  have hcount : waiting = pre.length + waiting + 1 - pre.length - 1 := by omega
  have hbefore : ∀ j < pre.length + waiting + 1, pre.length < j → offsets[j]? = some none := by
    intro j hj hpos
    obtain ⟨o, hmem, ho⟩ := exists_mem_between h hpos (by simpa using hj)
    rw [ho, List.eq_of_mem_replicate hmem]
  have hafter : ∀ j < pre.length + waiting + 1, pre.length < j →
      (Placement.spread offsets pre.length (pre.length + waiting + 1) waiting)[j]?.join.isSome := by
    intro j hj hpos
    obtain ⟨o, hmem, ho⟩ :=
      exists_mem_between (toList_spread h List.length_replicate) hpos (by simpa using hj)
    obtain ⟨x, -, rfl⟩ := List.mem_map.1 hmem
    rw [ho]
    rfl
  rw [spread, require_pos (by omega), require_pos hcount, require_pos hbefore, read_eq h, hread]
  simp only [bind, Except.bind, ← hcount, fillRun_eq h List.length_replicate]
  rw [Placement.spread, at_of_toList h, hat, ← hcount] at hafter ⊢
  rw [require_pos hafter]
  rfl

/-- A count that is one off is noticed. -/
example : spread #[some 0, none, some 1] 0 2 0 = .error (.fault .miscounted) := rfl

/-! ## The guards of the pass -/

variable {p : Progress} {done : List Binary64} {anchor : Binary64} {left : Nat}

theorem settle_eq (next : Binary64) (h : p.At done anchor waiting (waiting + (left + 1))) :
    settle p (done.length + waiting + 1) next =
      .ok (p.settle (done.length + waiting + 1) next) := by
  have hdone : (done.map some).length = done.length := List.length_map ..
  have hsize : done.length + waiting + 1 < p.offsets.size := by
    rw [← Array.length_toList, h.offsets]
    simp
    omega
  have hset := h.toList_set next
  have hspread := spread_eq hset
  have hraise := raiseRun_eq (Progress.toList_spread_waiting hset)
  have hwidth : done.length + waiting + 1 - done.length =
      (provisionals anchor next waiting ++ [next]).length := by
    simp
    omega
  rw [hdone] at hspread hraise
  rw [settle, write_eq hsize, Progress.settle, h.anchor, h.waiting, hwidth,
    require_pos (.inl (by omega))]
  by_cases hwaiting : 0 < waiting
  · simp only [if_pos hwaiting] at hraise ⊢
    simp only [bind, Except.bind, hspread, hraise]
    rfl
  · simp only [if_neg hwaiting] at hraise ⊢
    simp only [bind, Except.bind, pure, Except.pure, hraise]

theorem advance_own {stop : Stop} {i last : Nat} (h : ownOffset last i stop = .ok (some x)) :
    advance last p (stop, i) = settle p i x := by
  rw [advance, h]
  rfl

/-- The guarded pass over stops after an anchor is the pass without guards. -/
theorem foldlM_advance (last : Nat) (stops : List Stop) (h : p.At done anchor waiting left)
    (hleft : waiting + stops.length ≤ left) :
    (stops.zipIdx (done.length + waiting + 1)).foldlM (advance last) p =
      ((stops.zipIdx (done.length + waiting + 1)).foldlM (Progress.advance last) p).mapError
        .refused := by
  -- the invariant is `Progress.At`; a stop that waits only changes the counter
  induction stops generalizing p done anchor waiting left with
  | nil => rfl
  | cons stop stops ih =>
    rw [List.length_cons] at hleft
    rw [List.zipIdx_cons, List.foldlM_cons, List.foldlM_cons, Progress.advance]
    cases hown : ownOffset last (done.length + waiting + 1) stop with
    | error e =>
      rw [advance, hown]
      rfl
    | ok o =>
      cases o with
      | none =>
        have hnext : ({ p with waiting := p.waiting + 1 } : Progress).At done anchor
            (waiting + 1) left := ⟨h.offsets, h.anchor, by rw [h.waiting]⟩
        rw [advance, hown]
        exact ih hnext (by omega)
      | some x =>
        obtain ⟨left, rfl⟩ : ∃ left', left = waiting + (left' + 1) :=
          ⟨left - (waiting + 1), by omega⟩
        have hrest := ih (h.settle x) (by omega)
        -- the indices go on where the settled stops end
        have hindex : (done ++ anchor :: raised anchor (provisionals anchor x waiting)).length +
            0 + 1 = done.length + waiting + 1 + 1 := by
          simp
          omega
        rw [hindex] at hrest
        rw [advance_own hown, settle_eq x h]
        exact hrest

/-- The first stop is settled alone. -/
theorem settle_start (x : Binary64) (n : Nat) :
    settle (.start (n + 1)) 0 x = .ok ((Progress.start (n + 1)).settle 0 x) := by
  have hsize : 0 < (Progress.start (n + 1)).offsets.size := by simp [Progress.start]
  rw [settle, write_eq hsize, require_pos (.inr ⟨rfl, rfl⟩)]
  rfl

theorem place_eq (stops : List Stop) : place stops = (Placement.place stops).mapError .refused := by
  cases stops with
  | nil => rfl
  | cons stop stops =>
    rw [place, Placement.place, List.length_cons, Nat.add_sub_cancel, List.zipIdx_cons,
      List.foldlM_cons, List.foldlM_cons, Progress.advance]
    cases hown : ownOffset stops.length 0 stop with
    | error e =>
      rw [advance, hown]
      rfl
    | ok o =>
      cases o with
      | none => exact absurd hown (ownOffset_ne_none (.inl rfl))
      | some x =>
        have hrest : (stops.zipIdx 1).foldlM (advance stops.length)
            ((Progress.start (stops.length + 1)).settle 0 x) =
              ((stops.zipIdx 1).foldlM (Progress.advance stops.length)
                ((Progress.start (stops.length + 1)).settle 0 x)).mapError .refused :=
          foldlM_advance stops.length stops (Progress.at_start x stops.length) (by omega)
        rw [advance_own hown, settle_start]
        simp only [bind, Except.bind, pure, Except.pure, Nat.zero_add, hrest]
        cases (stops.zipIdx 1).foldlM (Progress.advance stops.length)
          ((Progress.start (stops.length + 1)).settle 0 x) <;> rfl

end Checked

/-- No guard of the bookkeeping ever fails: with all of them the placement of any stops is the one
without, and where it refuses a stop it does so for the same reason. So no index is out of range,
no read finds its offset absent, and every run is spread over the stops that wait between its two
anchors, all of them absent before, counted down to zero, and all of them settled after. -/
theorem checked_place (stops : List Stop) :
    Checked.place stops = (place stops).mapError .refused ∧
      ∀ fault, Checked.place stops ≠ .error (.fault fault) := by
  refine ⟨Checked.place_eq stops, fun fault h => ?_⟩
  rw [Checked.place_eq] at h
  cases hplace : place stops with
  | error e =>
    rw [hplace] at h
    cases h
  | ok placed =>
    rw [hplace] at h
    cases h

end LegacyGradient.Placement
