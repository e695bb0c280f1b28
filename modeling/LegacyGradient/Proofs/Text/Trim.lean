/-
  LegacyGradient.Proofs.Text.Trim

  What trimming leaves. A text is trimmed if no blank stands at either end; of a trimmed text
  between two runs of blanks trimming leaves just that text (`trim_append`).
-/
import LegacyGradient.Proofs.Text.Outside

namespace LegacyGradient.Text

/-- No blank stands at either end of the text. -/
structure Trimmed (t : Text) : Prop where
  /-- No blank stands at the front. -/
  front : Outside isBlank t
  /-- No blank stands at the end. -/
  back : Outside isBlank t.reverse

variable {s t u : Text}

theorem trim_append (hs : ∀ c ∈ s, isBlank c = true) (hu : ∀ c ∈ u, isBlank c = true)
    (ht : t.Trimmed) : trim (s ++ t ++ u) = t := by
  have hfront : trimStart (s ++ (t ++ u)) = trimStart (t ++ u) := List.dropWhile_append_of_pos hs
  have hback : (t ++ u).reverse.dropWhile isBlank = t.reverse := by
    rw [List.reverse_append]
    exact dropWhile_append_outside (by simpa using hu) ht.back
  rw [List.append_assoc, trim, hfront]
  cases t with
  | nil =>
    have : trimStart u = [] := by
      simpa [trimStart] using dropWhile_append_outside hu outside_nil
    simp [this, trimEnd]
  | cons c t =>
    have : trimStart (c :: t ++ u) = c :: t ++ u :=
      dropWhile_outside (outside_cons.2 (outside_cons.1 ht.front))
    rw [this, trimEnd, hback, List.reverse_reverse]

/-- Of a trimmed text trimming leaves all. -/
theorem Trimmed.trim_eq (ht : t.Trimmed) : trim t = t := by
  have := trim_append (s := []) (u := []) (by simp) (by simp) ht
  rwa [List.nil_append, List.append_nil] at this

/-- Trimming takes away blanks only, and no blank is left at either end. -/
theorem exists_blanks_trim (t : Text) :
    ∃ s u : Text, t = s ++ trim t ++ u ∧ (∀ c ∈ s, isBlank c = true) ∧
      (∀ c ∈ u, isBlank c = true) ∧ (trim t).Trimmed := by
  let front := t.takeWhile isBlank
  let back := ((trimStart t).reverse.takeWhile isBlank).reverse
  have hback : trimStart t = trim t ++ back := by
    have := congrArg List.reverse
      (List.takeWhile_append_dropWhile (p := isBlank) (l := (trimStart t).reverse))
    rw [List.reverse_append, List.reverse_reverse] at this
    exact this.symm
  have hfront : t = front ++ trim t ++ back := by
    rw [List.append_assoc, ← hback]
    exact List.takeWhile_append_dropWhile.symm
  refine ⟨front, back, hfront, List.all_eq_true.1 List.all_takeWhile, ?_, ?_, ?_⟩
  · intro c hc
    exact List.all_eq_true.1 List.all_takeWhile c (List.mem_reverse.1 hc)
  · -- the first character of what is left is also the first one behind the blanks in front
    intro c hc
    have hstart : Outside isBlank (trimStart t) := outside_dropWhile
    apply hstart c
    rw [hback, List.head?_append, hc]
    rfl
  · rw [trim, trimEnd, List.reverse_reverse]
    exact outside_dropWhile

theorem trimmed_trim (t : Text) : (trim t).Trimmed := by
  obtain ⟨s, u, -, -, -, h⟩ := exists_blanks_trim t
  exact h

/-- Two texts without blanks at the outer ends are trimmed together, whatever stands between. -/
theorem Trimmed.between (hs : s ≠ []) (hfront : Outside isBlank s) (ht : t ≠ [])
    (hback : Outside isBlank t.reverse) (u : Text) : Trimmed (s ++ u ++ t) where
  front := by
    rw [List.append_assoc]
    exact (outside_append_of_ne_nil hs).2 hfront
  back := by
    rw [List.reverse_append]
    exact (outside_append_of_ne_nil (by simpa using ht)).2 hback

theorem trimmed_of_forall (h : ∀ c ∈ t, isBlank c = false) : t.Trimmed where
  front := fun c hc => h c (List.mem_of_mem_head? hc)
  back := fun c hc => h c (List.mem_reverse.1 (List.mem_of_mem_head? hc))

/-- Nothing is left of blanks. -/
theorem trim_of_forall (h : ∀ c ∈ t, isBlank c = true) : trim t = [] := by
  have := trim_append h (t := []) (u := []) (by simp) (trimmed_of_forall (by simp))
  rwa [List.append_nil, List.append_nil] at this

end LegacyGradient.Text
