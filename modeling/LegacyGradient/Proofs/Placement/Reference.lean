/-
  LegacyGradient.Proofs.Placement.Reference

  The placement from the first stop to the last, without an array. The stops between two anchors
  get provisional offsets, which depend on the two anchors and on the distance to the first, and
  then everything up to the second anchor is raised, each stop to its predecessor. The second
  anchor may be raised with them; the next run starts from where it ends up.
-/
import LegacyGradient.Placement

namespace LegacyGradient.Placement

variable {previous start next x : Binary64} {xs ys : List Binary64} {own : List (Option Binary64)}

/-! ## Raising -/

/-- An offset that lies before the previous one is raised to it. -/
def raise (previous x : Binary64) : Binary64 := if x < previous then previous else x

/-- The offsets of a run, each raised to the one before it. -/
def raised (previous : Binary64) : List Binary64 → List Binary64
  | [] => []
  | x :: xs => raise previous x :: raised (raise previous x) xs

@[simp] theorem length_raised : (raised previous xs).length = xs.length := by
  induction xs generalizing previous with
  | nil => rfl
  | cons x xs ih => rw [raised, List.length_cons, ih, List.length_cons]

theorem raised_append :
    raised previous (xs ++ ys) = raised previous xs ++ raised (xs.foldl raise previous) ys := by
  induction xs generalizing previous with
  | nil => rfl
  | cons x xs ih => rw [List.cons_append, raised, ih, raised, List.foldl_cons, List.cons_append]

/-! ## The run before an anchor -/

/-- The step of a run that leads to an anchor `distance` places away. -/
def stepTo (start next : Binary64) (distance : Nat) : Binary64 :=
  ((next - start) / .ofNat distance).atLeastZero

/-- The provisional offset `j` places after the first of two anchors. -/
def provisional (start next : Binary64) (distance j : Nat) : Binary64 :=
  roundToHundredth (start + stepTo start next distance * .ofNat j)

/-- The provisional offsets of the stops that wait between two anchors. -/
def provisionals (start next : Binary64) (waiting : Nat) : List Binary64 :=
  (List.range waiting).map fun j => provisional start next (waiting + 1) (j + 1)

@[simp] theorem length_provisionals (waiting : Nat) :
    (provisionals start next waiting).length = waiting := by
  rw [provisionals, List.length_map, List.length_range]

theorem mem_provisionals {waiting : Nat} :
    x ∈ provisionals start next waiting ↔
      ∃ j, 0 < j ∧ j < waiting + 1 ∧ provisional start next (waiting + 1) j = x := by
  simp only [provisionals, List.mem_map, List.mem_range]
  constructor
  · rintro ⟨j, hj, hx⟩
    exact ⟨j + 1, Nat.succ_pos j, Nat.succ_lt_succ hj, hx⟩
  · rintro ⟨j, hpos, hj, hx⟩
    refine ⟨j - 1, by omega, ?_⟩
    rwa [Nat.sub_add_cancel hpos]

/-- The offset that the second of two anchors ends up with. -/
def anchorAfter (start next : Binary64) (waiting : Nat) : Binary64 :=
  raise ((provisionals start next waiting).foldl raise start) next

/-- The offsets after the first of two anchors, the second included. -/
def run (start next : Binary64) (waiting : Nat) : List Binary64 :=
  raised start (provisionals start next waiting) ++ [anchorAfter start next waiting]

theorem run_eq_raised (waiting : Nat) :
    run start next waiting = raised start (provisionals start next waiting ++ [next]) := by
  rw [raised_append]
  rfl

@[simp] theorem length_run (waiting : Nat) : (run start next waiting).length = waiting + 1 := by
  simp [run]

/-! ## All stops -/

/-- The offsets after the anchor at `start`, when `waiting` stops wait already. -/
def settledFrom (start : Binary64) : (waiting : Nat) → List (Option Binary64) → List Binary64
  | _, [] => []
  | waiting, none :: own => settledFrom start (waiting + 1) own
  | waiting, some next :: own =>
    run start next waiting ++ settledFrom (anchorAfter start next waiting) 0 own

/-- The offsets of all stops, from the offsets that they have of their own. -/
def settled : List (Option Binary64) → List Binary64
  | some first :: own => first :: settledFrom first 0 own
  | _ => []

/-- The stops before an anchor are settled without regard to those after it. -/
theorem exists_settledFrom_append (own : List (Option Binary64)) (start next : Binary64)
    (waiting : Nat) :
    ∃ (done : List Binary64) (anchor : Binary64), done.length = waiting + own.length ∧
      ∀ rest, settledFrom start waiting (own ++ some next :: rest) =
        done ++ anchor :: settledFrom anchor 0 rest := by
  -- the anchor after `own` ends the run that the last anchor in `own` begins
  induction own generalizing start waiting with
  | nil =>
    refine ⟨raised start (provisionals start next waiting), anchorAfter start next waiting,
      by simp, fun rest => ?_⟩
    rw [List.nil_append, settledFrom, run, List.append_assoc]
    rfl
  | cons o own ih =>
    cases o with
    | none =>
      obtain ⟨done, anchor, hlength, hdone⟩ := ih start (waiting + 1)
      refine ⟨done, anchor, ?_, fun rest => ?_⟩
      · rw [hlength, List.length_cons]
        omega
      · rw [List.cons_append, settledFrom, hdone]
    | some x =>
      obtain ⟨done, anchor, hlength, hdone⟩ := ih (anchorAfter start x waiting) 0
      refine ⟨run start x waiting ++ done, anchor, ?_, fun rest => ?_⟩
      · rw [List.length_append, length_run, hlength, List.length_cons]
        omega
      · rw [List.cons_append, settledFrom, hdone, List.append_assoc]

theorem exists_settled_append (h : own.head? ≠ some none) (x : Binary64) :
    ∃ (done : List Binary64) (anchor : Binary64), done.length = own.length ∧
      ∀ rest, settled (own ++ some x :: rest) = done ++ anchor :: settledFrom anchor 0 rest := by
  cases own with
  | nil => exact ⟨[], x, rfl, fun rest => rfl⟩
  | cons o own =>
    cases o with
    | none => exact absurd rfl h
    | some first =>
      obtain ⟨done, anchor, hlength, hdone⟩ := exists_settledFrom_append own first x 0
      refine ⟨first :: done, anchor, by simp [hlength], fun rest => ?_⟩
      rw [List.cons_append, settled, hdone, List.cons_append]

theorem settledFrom_replicate (waiting n : Nat) :
    settledFrom start waiting (List.replicate n none ++ own) =
      settledFrom start (waiting + n) own := by
  induction n generalizing waiting with
  | zero => rfl
  | succ n ih =>
    rw [List.replicate_succ, List.cons_append, settledFrom, ih]
    congr 1
    omega

theorem length_settledFrom {waiting : Nat}
    (h : (List.replicate waiting none ++ own).getLast? ≠ some none) :
    (settledFrom start waiting own).length = waiting + own.length := by
  induction own generalizing start waiting with
  | nil =>
    cases waiting with
    | zero => rfl
    | succ n => simp [List.getLast?_replicate] at h
  | cons o own ih =>
    cases o with
    | none =>
      rw [settledFrom, ih, List.length_cons]
      · omega
      · rwa [List.replicate_succ', List.append_assoc]
    | some next =>
      rw [settledFrom, List.length_append, length_run, ih, List.length_cons]
      · omega
      · intro hlast
        rw [List.replicate_zero, List.nil_append] at hlast
        rw [List.getLast?_append, List.getLast?_cons, hlast] at h
        exact h rfl

theorem length_settled (hfirst : own.head? ≠ some none) (hlast : own.getLast? ≠ some none) :
    (settled own).length = own.length := by
  cases own with
  | nil => rfl
  | cons o own =>
    cases o with
    | none => exact absurd rfl hfirst
    | some first =>
      rw [settled, List.length_cons, length_settledFrom, Nat.zero_add, List.length_cons]
      intro hown
      rw [List.replicate_zero, List.nil_append] at hown
      rw [List.getLast?_cons, hown] at hlast
      exact hlast rfl

end LegacyGradient.Placement
