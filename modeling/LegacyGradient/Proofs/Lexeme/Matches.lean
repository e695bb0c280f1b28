/-
  LegacyGradient.Proofs.Lexeme.Matches

  What a match of a lexeme consists of: for each way of making a lexeme there is one equivalence
  that takes a match apart, and puts it together again.
-/
import LegacyGradient.Lexeme
import LegacyGradient.Proofs.Text.Outside

namespace LegacyGradient.Lexeme

open Text (Outside)

variable {a b : Lexeme} {p : Char → Bool} {w t m rest v : Text} {words : List Text} {c : Char}

/-! ## Single lexemes -/

theorem word_eq_some_iff : word w t = some (m, rest) ↔ m = w ∧ t = w ++ rest := by
  simp only [word]
  constructor
  · intro h
    split at h
    case isTrue hw =>
      obtain ⟨v, rfl⟩ := List.isPrefixOf_iff_prefix.1 hw
      simp_all
    case isFalse => contradiction
  · rintro ⟨rfl, rfl⟩
    simp

theorem word_eq_none_iff : word w t = none ↔ ¬ w <+: t := by
  simp [word, List.isPrefixOf_iff_prefix]

@[simp] theorem word_append : word w (w ++ v) = some (w, v) :=
  word_eq_some_iff.2 ⟨rfl, rfl⟩

theorem char_eq_some_iff : char c t = some (m, rest) ↔ m = [c] ∧ t = c :: rest := by
  simp [char, word_eq_some_iff]

@[simp] theorem char_cons_self : char c (c :: v) = some ([c], v) :=
  char_eq_some_iff.2 ⟨rfl, rfl⟩

theorem char_eq_none (h : Outside (· == c) t) : char c t = none := by
  rw [char, word_eq_none_iff]
  rintro ⟨v, rfl⟩
  simp at h

theorem run_eq_some_iff :
    run p t = some (m, rest) ↔ t = m ++ rest ∧ (∀ c ∈ m, p c = true) ∧ Outside p rest := by
  simp only [run, Option.some.injEq, Prod.mk.injEq]
  constructor
  · rintro ⟨rfl, rfl⟩
    exact ⟨List.takeWhile_append_dropWhile.symm, List.all_eq_true.1 List.all_takeWhile,
      Text.outside_dropWhile⟩
  · rintro ⟨rfl, hm, hrest⟩
    exact ⟨Text.takeWhile_append_outside hm hrest, Text.dropWhile_append_outside hm hrest⟩

theorem run_append (hm : ∀ c ∈ m, p c = true) (v : Text) :
    run p (m ++ v) = some (m ++ v.takeWhile p, v.dropWhile p) := by
  simp only [run, List.takeWhile_append_of_pos hm, List.dropWhile_append_of_pos hm]

/-! ## Lexemes made of others -/

theorem such_eq_some_iff {p : Text → Bool} :
    a.such p t = some (m, rest) ↔ a t = some (m, rest) ∧ p m = true := by
  simp [such, Option.filter_eq_some_iff]

theorem run1_eq_some_iff :
    run1 p t = some (m, rest) ↔
      t = m ++ rest ∧ (∀ c ∈ m, p c = true) ∧ Outside p rest ∧ m ≠ [] := by
  simp [run1, such_eq_some_iff, run_eq_some_iff, and_assoc]

theorem run1_append (hm : ∀ c ∈ m, p c = true) (hne : m ≠ []) (v : Text) :
    run1 p (m ++ v) = some (m ++ v.takeWhile p, v.dropWhile p) :=
  such_eq_some_iff.2 ⟨run_append hm v, by simp [hne]⟩

theorem run1_eq_none (h : Outside p t) : run1 p t = none := by
  simp [run1, such, run, Text.takeWhile_outside h]

theorem append_eq_some_iff :
    (a ++ b) t = some (m, rest) ↔
      ∃ m₁ m₂ r, a t = some (m₁, r) ∧ b r = some (m₂, rest) ∧ m = m₁ ++ m₂ := by
  change (append a b).scan t = _ ↔ _
  simp only [append]
  cases a t with
  | none => simp
  | some found =>
    obtain ⟨m₁, r⟩ := found
    simp [Option.map_eq_some_iff]
    grind

theorem append_scan {m₁ m₂ r : Text} (ha : a t = some (m₁, r)) (hb : b r = some (m₂, rest)) :
    (a ++ b) t = some (m₁ ++ m₂, rest) :=
  append_eq_some_iff.2 ⟨m₁, m₂, r, ha, hb, rfl⟩

theorem append_eq_none_left (ha : a t = none) : (a ++ b) t = none := by
  change (append a b).scan t = none
  simp [append, ha]

theorem append_eq_none_right {r : Text} (ha : a t = some (m, r)) (hb : b r = none) :
    (a ++ b) t = none := by
  change (append a b).scan t = none
  simp [append, ha, hb]

theorem orElse_eq_some_iff {found : Text × Text} :
    (a <|> b) t = some found ↔ a t = some found ∨ a t = none ∧ b t = some found := by
  change (orElse a b).scan t = _ ↔ _
  simp only [orElse]
  cases a t <;> simp

theorem orElse_eq_none_iff : (a <|> b) t = none ↔ a t = none ∧ b t = none := by
  change (orElse a b).scan t = _ ↔ _
  simp only [orElse]
  cases a t <;> simp

theorem optional_eq_some_iff :
    a.optional t = some (m, rest) ↔
      a t = some (m, rest) ∨ a t = none ∧ m = [] ∧ rest = t := by
  have : a.optional = (a <|> word []) := rfl
  rw [this, orElse_eq_some_iff, word_eq_some_iff]
  simp [eq_comm]

theorem optional_of_none (h : a t = none) : a.optional t = some ([], t) :=
  optional_eq_some_iff.2 (.inr ⟨h, rfl, rfl⟩)

theorem optional_of_some (h : a t = some (m, rest)) : a.optional t = some (m, rest) :=
  optional_eq_some_iff.2 (.inl h)

/-! ## Choice between words -/

theorem mem_of_oneOf (h : oneOf words t = some (m, rest)) : m ∈ words ∧ t = m ++ rest := by
  induction words with
  | nil => contradiction
  | cons w words ih =>
    rcases orElse_eq_some_iff.1 h with h | ⟨-, h⟩
    · obtain ⟨rfl, rfl⟩ := word_eq_some_iff.1 h
      simp
    · exact ⟨List.mem_cons_of_mem w (ih h).1, (ih h).2⟩

theorem oneOf_eq_none (h : ∀ w ∈ words, ¬ w <+: t) : oneOf words t = none := by
  induction words with
  | nil => rfl
  | cons w words ih =>
    refine orElse_eq_none_iff.2 ⟨word_eq_none_iff.2 (h w (by simp)), ?_⟩
    exact ih fun w' hw' => h w' (by simp [hw'])

/-- Where no word is the beginning of another, the order of the words does not matter. -/
theorem oneOf_append (hfree : ∀ w ∈ words, ∀ w' ∈ words, w <+: w' → w = w') (hm : m ∈ words)
    (v : Text) : oneOf words (m ++ v) = some (m, v) := by
  induction words with
  | nil => simp at hm
  | cons w words ih =>
    refine orElse_eq_some_iff.2 ?_
    by_cases hw : w <+: m ++ v
    · -- two beginnings of one text: one of the words begins the other
      have hwm : w = m := by
        rcases List.prefix_or_prefix_of_prefix hw (List.prefix_append m v) with h | h
        · exact hfree w (by simp) m hm h
        · exact (hfree m hm w (by simp) h).symm
      exact .inl (hwm ▸ word_append)
    · refine .inr ⟨word_eq_none_iff.2 hw, ?_⟩
      refine ih (fun w hw w' hw' => hfree w (by simp [hw]) w' (by simp [hw'])) ?_
      rcases List.mem_cons.1 hm with rfl | hm
      · exact absurd (List.prefix_append m v) hw
      · exact hm

end LegacyGradient.Lexeme

namespace LegacyGradient

/-! ## Whole texts -/

theorem wholeText_eq_some_iff {α : Type} {scan : Text → Option (α × Text)} {t : Text} {a : α} :
    wholeText scan t = some a ↔ scan t = some (a, []) := by
  simp only [wholeText]
  cases scan t with
  | none => simp
  | some found =>
    obtain ⟨b, rest⟩ := found
    cases rest <;> simp

end LegacyGradient
