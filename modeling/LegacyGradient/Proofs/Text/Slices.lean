/-
  LegacyGradient.Proofs.Text.Slices

  The pieces of a text by their places in it. The cuts are the indices of the commas where no
  parenthesis is open, and the pieces are what stands between one cut and the next
  (`pieces_eq_slices`). Whether a comma is a cut is read off the text in front of it, from the
  beginning, and not off the piece that it ends.
-/
import LegacyGradient.Text.Cut

namespace LegacyGradient.Text

variable {t : Text} {c : Char} {depth start : Nat} {indices : List Nat}

/-- The indices of the commas at depth zero, in a text that begins at depth `depth`. -/
def cutsFrom (depth : Nat) (t : Text) : List Nat :=
  (List.range t.length).filter fun i => t[i]? = some ',' ∧ depthAfter depth (t.take i) = 0

/-- The indices of the commas where no parenthesis is open. -/
def cuts (t : Text) : List Nat := cutsFrom 0 t

/-- The parts of a text from the index `start` on, up to one of the given indices each and after the
last one. What stands at these indices belongs to no part. -/
def slices (t : Text) (start : Nat) : (indices : List Nat) → List Text
  | [] => [t.drop start]
  | i :: indices => (t.take i).drop start :: slices t (i + 1) indices

@[simp] theorem length_slices : (slices t start indices).length = indices.length + 1 := by
  induction indices generalizing start with
  | nil => rfl
  | cons i indices ih => rw [slices, List.length_cons, ih, List.length_cons]

/-! ## One character more in front -/

theorem cutsFrom_cons (depth : Nat) (c : Char) (t : Text) :
    cutsFrom depth (c :: t) = (if c = ',' ∧ depth = 0 then [0] else []) ++
      (cutsFrom (nesting depth c) t).map (· + 1) := by
  rw [cutsFrom, List.length_cons, List.range_succ_eq_map, List.filter_cons, List.filter_map]
  -- a later index sees one character more in front of it, which changes the depth at the beginning
  have hlater : ((List.range t.length).filter ((fun i => decide ((c :: t)[i]? = some ',' ∧
      depthAfter depth ((c :: t).take i) = 0)) ∘ Nat.succ)) = cutsFrom (nesting depth c) t := rfl
  have hfirst : decide ((c :: t)[0]? = some ',' ∧ depthAfter depth ((c :: t).take 0) = 0) =
      decide (c = ',' ∧ depth = 0) := by
    simp [depthAfter]
  rw [hlater, hfirst]
  by_cases hcut : c = ',' ∧ depth = 0
  · rw [if_pos (decide_eq_true hcut), if_pos hcut]
    rfl
  · rw [if_neg (by simpa using hcut), if_neg hcut]
    rfl

theorem slices_cons_succ (start : Nat) :
    slices (c :: t) (start + 1) (indices.map (· + 1)) = slices t start indices := by
  induction indices generalizing start with
  | nil => rfl
  | cons i indices ih => rw [List.map_cons, slices, ih, slices, List.take_succ_cons, List.drop_succ_cons]

/-- A character in front of all indices goes to the front of the first part. -/
theorem slices_cons_zero {piece : Text} {others : List Text}
    (h : slices t 0 indices = piece :: others) :
    slices (c :: t) 0 (indices.map (· + 1)) = (c :: piece) :: others := by
  cases indices with
  | nil =>
    obtain ⟨rfl, rfl⟩ := List.cons.inj h
    rfl
  | cons i indices =>
    obtain ⟨rfl, rfl⟩ := List.cons.inj h
    rw [List.map_cons, slices, slices_cons_succ, List.take_succ_cons]
    rfl

/-! ## The pieces -/

theorem piecesFrom_eq_slices (depth : Nat) (t : Text) :
    slices t 0 (cutsFrom depth t) = (piecesFrom depth t).1 :: (piecesFrom depth t).2 := by
  induction t generalizing depth with
  | nil => rfl
  | cons c t ih =>
    rw [cutsFrom_cons, piecesFrom]
    by_cases hcut : c = ',' ∧ depth = 0
    · -- the comma ends the empty piece in front of it
      obtain ⟨rfl, rfl⟩ := hcut
      rw [if_pos ⟨rfl, rfl⟩, if_pos ⟨rfl, rfl⟩, List.singleton_append, slices, slices_cons_succ]
      show [] :: slices t 0 (cutsFrom 0 t) = _
      rw [ih]
    · rw [if_neg hcut, if_neg hcut, List.nil_append, slices_cons_zero (ih _)]

/-- The pieces of a text are its parts between the cuts. -/
theorem pieces_eq_slices (t : Text) : pieces t = slices t 0 (cuts t) :=
  (piecesFrom_eq_slices 0 t).symm

/-- The comma in the parentheses is no cut, and neither is the one after a parenthesis that is never
closed. -/
example : cuts ")a,f(b,c),(d,e".toList = [2, 9] ∧
    slices ")a,f(b,c),(d,e".toList 0 [2, 9] = [")a".toList, "f(b,c)".toList, "(d,e".toList] := by
  decide +kernel

end LegacyGradient.Text
