/-
  LegacyGradient.Proofs.Text.Outside

  Where a run of characters ends. A text is outside of a class of characters if it is empty or
  begins with a character that is not in the class; a run of the class that stands before such a
  text is the longest one there (`takeWhile_append_outside`, `dropWhile_append_outside`).
-/
import LegacyGradient.Text.Blank

namespace LegacyGradient.Text

/-- The text does not begin with a character of the class. -/
def Outside (p : Char → Bool) (t : Text) : Prop := ∀ c ∈ t.head?, p c = false

variable {p q : Char → Bool} {s t : Text} {c : Char}

@[simp] theorem outside_nil : Outside p [] := by simp [Outside]

@[simp] theorem outside_cons : Outside p (c :: t) ↔ p c = false := by simp [Outside]

instance : Decidable (Outside p t) :=
  match t with
  | [] => isTrue outside_nil
  | _ :: _ => decidable_of_iff _ outside_cons.symm

theorem Outside.append (hs : Outside p s) (ht : Outside p t) : Outside p (s ++ t) := by
  cases s with
  | nil => exact ht
  | cons c s => simpa using hs

/-- The head of the first text is the head of the whole if there is one. -/
theorem outside_append_of_ne_nil (h : s ≠ []) : Outside p (s ++ t) ↔ Outside p s := by
  cases s with
  | nil => exact absurd rfl h
  | cons c s => simp

theorem Outside.mono (h : ∀ c, q c = true → p c = true) (ht : Outside p t) : Outside q t := by
  intro c hc
  refine Bool.eq_false_iff.2 fun hq => ?_
  have hp := ht c hc
  rw [h c hq] at hp
  contradiction

theorem outside_dropWhile : Outside p (t.dropWhile p) := by
  intro c hc
  simpa [Option.mem_def.1 hc] using List.head?_dropWhile_not p t

theorem takeWhile_outside (h : Outside p t) : t.takeWhile p = [] := by
  cases t with
  | nil => rfl
  | cons c t => simp [outside_cons.1 h]

theorem dropWhile_outside (h : Outside p t) : t.dropWhile p = t := by
  cases t with
  | nil => rfl
  | cons c t => simp [outside_cons.1 h]

theorem takeWhile_append_outside (hs : ∀ c ∈ s, p c = true) (ht : Outside p t) :
    (s ++ t).takeWhile p = s := by
  rw [List.takeWhile_append_of_pos hs, takeWhile_outside ht, List.append_nil]

theorem dropWhile_append_outside (hs : ∀ c ∈ s, p c = true) (ht : Outside p t) :
    (s ++ t).dropWhile p = t := by
  rw [List.dropWhile_append_of_pos hs, dropWhile_outside ht]

end LegacyGradient.Text
