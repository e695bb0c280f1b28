/-
  LegacyGradient.Proofs.Lexeme.Barrier

  Two properties that pass from lexemes to what is made of them. A lexeme halts at a character if
  what it matches in front of that character does not hang on anything behind it (`HaltsAt`); a
  match that ends right before the character is then found again whatever else follows
  (`HaltsAt.scan`). A lexeme is over a class of characters if its matches hold no others (`Over`).
-/
import LegacyGradient.Proofs.Lexeme.Matches

namespace LegacyGradient.Lexeme

variable {a a' : Lexeme} {p q : Char → Bool} {w t m rest : Text} {words : List Text} {b c : Char}

/-! ## Halting at a character -/

/-- What the lexeme matches in front of a `b` is decided by what stands there. -/
def HaltsAt (a : Lexeme) (b : Char) : Prop :=
  ∀ s, (∀ v, a (s ++ b :: v) = none) ∨
    ∃ m r, s = m ++ r ∧ ∀ v, a (s ++ b :: v) = some (m, r ++ b :: v)

/-- A match that ends right before a halting character is found before any text that begins so. -/
theorem HaltsAt.scan (h : a.HaltsAt b) (hs : a t = some (m, b :: rest)) (v : Text) :
    a (m ++ b :: v) = some (m, b :: v) := by
  rw [← a.append_of_scan hs] at hs
  rcases h m with hnone | ⟨m', r, hm, hsome⟩
  · rw [hnone rest] at hs
    contradiction
  · have hrest := hsome rest
    rw [hs] at hrest
    simp only [Option.some.injEq, Prod.mk.injEq] at hrest
    obtain ⟨rfl, -⟩ := hrest
    have hr : r = [] := List.self_eq_append_right.1 hm
    rw [hsome v, hr, List.nil_append]

theorem HaltsAt.word (h : b ∉ w) : (word w).HaltsAt b := by
  intro s
  by_cases hp : w <+: s
  · obtain ⟨r, rfl⟩ := hp
    exact .inr ⟨w, r, rfl, fun v => by simp⟩
  · refine .inl fun v => word_eq_none_iff.2 fun hw => ?_
    -- a word that reaches past `s` holds the barrier
    rcases List.prefix_or_prefix_of_prefix hw (List.prefix_append s (b :: v)) with hs | ⟨x, rfl⟩
    · exact hp hs
    · rw [List.prefix_append_right_inj] at hw
      cases x with
      | nil => simp at hp
      | cons c x =>
        rw [List.cons_prefix_cons] at hw
        simp [hw.1] at h

theorem HaltsAt.char (h : c ≠ b) : (char c).HaltsAt b := .word (by simpa using h.symm)

theorem HaltsAt.never : never.HaltsAt b := fun _ => .inl fun _ => rfl

theorem HaltsAt.run (h : p b = false) : (run p).HaltsAt b := by
  intro s
  refine .inr ⟨s.takeWhile p, s.dropWhile p, List.takeWhile_append_dropWhile.symm, fun v => ?_⟩
  rw [run_eq_some_iff]
  refine ⟨by rw [← List.append_assoc, List.takeWhile_append_dropWhile],
    List.all_eq_true.1 List.all_takeWhile, ?_⟩
  exact Text.outside_dropWhile.append (Text.outside_cons.2 h)

theorem HaltsAt.such {p : Text → Bool} (h : a.HaltsAt b) : (a.such p).HaltsAt b := by
  intro s
  rcases h s with hnone | ⟨m, r, hs, hsome⟩
  · exact .inl fun v => by simp [Lexeme.such, hnone v]
  · cases hp : p m with
    | false => exact .inl fun v => by simp [Lexeme.such, hsome v, hp]
    | true => exact .inr ⟨m, r, hs, fun v => such_eq_some_iff.2 ⟨hsome v, hp⟩⟩

theorem HaltsAt.run1 (h : p b = false) : (run1 p).HaltsAt b := (HaltsAt.run h).such

theorem HaltsAt.append (h : a.HaltsAt b) (h' : a'.HaltsAt b) : (a ++ a').HaltsAt b := by
  intro s
  rcases h s with hnone | ⟨m, r, rfl, hsome⟩
  · exact .inl fun v => append_eq_none_left (hnone v)
  · rcases h' r with hnone | ⟨m', r', rfl, hsome'⟩
    · exact .inl fun v => append_eq_none_right (hsome v) (hnone v)
    · exact .inr ⟨m ++ m', r', by simp, fun v => append_scan (hsome v) (hsome' v)⟩

theorem HaltsAt.orElse (h : a.HaltsAt b) (h' : a'.HaltsAt b) : (a <|> a').HaltsAt b := by
  intro s
  rcases h s with hnone | ⟨m, r, hs, hsome⟩
  · rcases h' s with hnone' | ⟨m, r, hs, hsome⟩
    · exact .inl fun v => orElse_eq_none_iff.2 ⟨hnone v, hnone' v⟩
    · exact .inr ⟨m, r, hs, fun v => orElse_eq_some_iff.2 (.inr ⟨hnone v, hsome v⟩)⟩
  · exact .inr ⟨m, r, hs, fun v => orElse_eq_some_iff.2 (.inl (hsome v))⟩

theorem HaltsAt.optional (h : a.HaltsAt b) : a.optional.HaltsAt b :=
  h.orElse (.word (by simp))

theorem HaltsAt.oneOf (h : ∀ w ∈ words, b ∉ w) : (oneOf words).HaltsAt b := by
  induction words with
  | nil => exact .never
  | cons w words ih =>
    exact (HaltsAt.word (h w (by simp))).orElse (ih fun w' hw' => h w' (by simp [hw']))

/-! ## The characters of a match -/

/-- All characters of a match are of the class. -/
def Over (a : Lexeme) (p : Char → Bool) : Prop :=
  ∀ t m rest, a t = some (m, rest) → ∀ c ∈ m, p c = true

theorem Over.word (h : ∀ c ∈ w, p c = true) : (word w).Over p := by
  intro t m rest hs
  obtain ⟨rfl, -⟩ := word_eq_some_iff.1 hs
  exact h

theorem Over.char (h : p c = true) : (char c).Over p := .word (by simpa using h)

theorem Over.never : never.Over p := fun _ _ _ hs => by contradiction

theorem Over.run (h : ∀ c, q c = true → p c = true) : (run q).Over p := by
  intro t m rest hs c hc
  exact h c ((run_eq_some_iff.1 hs).2.1 c hc)

theorem Over.such {q : Text → Bool} (h : a.Over p) : (a.such q).Over p :=
  fun t m rest hs => h t m rest (such_eq_some_iff.1 hs).1

theorem Over.run1 (h : ∀ c, q c = true → p c = true) : (run1 q).Over p := (Over.run h).such

theorem Over.append (h : a.Over p) (h' : a'.Over p) : (a ++ a').Over p := by
  intro t m rest hs c hc
  obtain ⟨m₁, m₂, r, h₁, h₂, rfl⟩ := append_eq_some_iff.1 hs
  rcases List.mem_append.1 hc with hc | hc
  · exact h t m₁ r h₁ c hc
  · exact h' r m₂ rest h₂ c hc

theorem Over.orElse (h : a.Over p) (h' : a'.Over p) : (a <|> a').Over p := by
  intro t m rest hs
  rcases orElse_eq_some_iff.1 hs with hs | ⟨-, hs⟩
  · exact h t m rest hs
  · exact h' t m rest hs

theorem Over.optional (h : a.Over p) : a.optional.Over p := h.orElse (.word (by simp))

theorem Over.oneOf (h : ∀ w ∈ words, ∀ c ∈ w, p c = true) : (oneOf words).Over p := by
  induction words with
  | nil => exact .never
  | cons w words ih =>
    exact (Over.word (h w (by simp))).orElse (ih fun w' hw' => h w' (by simp [hw']))

end LegacyGradient.Lexeme
