/-
  LegacyGradient.Proofs.Lexeme.Separated

  Lists of items with separators between them: a list is matched if each of its items is matched in
  front of what follows it (`separated_join`), and a match is such a list (`join_of_separated`).
-/
import LegacyGradient.Proofs.Lexeme.Matches
import LegacyGradient.Proofs.Text.Cut

namespace LegacyGradient.Lexeme

open Text (Outside)

variable {item : Lexeme} {separator : Char} {t m rest v : Text} {ts : List Text}

theorem moreItems_cons (h : item t = some (m, rest)) :
    moreItems separator item (separator :: t) =
      (separator :: m ++ (moreItems separator item rest).1, (moreItems separator item rest).2) := by
  rw [moreItems, if_pos rfl]
  split
  · simp_all
  · next found =>
    rw [h] at found
    simp only [Option.some.injEq, Prod.mk.injEq] at found
    rw [found.1, found.2]

theorem moreItems_outside (h : Outside (· == separator) t) :
    moreItems separator item t = ([], t) := by
  cases t with
  | nil => rw [moreItems]
  | cons c t =>
    have hc : c ≠ separator := by simpa using h
    rw [moreItems, if_neg hc]

/-- An item is matched in front of the items after it. -/
theorem scan_before_items (hitem : ∀ u, item (t ++ separator :: u) = some (t, separator :: u))
    (hlast : item (t ++ v) = some (t, v)) (ts : List Text) :
    item (t ++ (ts.flatMap ([separator] ++ ·) ++ v)) =
      some (t, ts.flatMap ([separator] ++ ·) ++ v) := by
  cases ts with
  | nil => exact hlast
  | cons t' ts => exact hitem _

/-- The items after the first are matched with the separators before them. -/
theorem moreItems_flatMap
    (hitem : ∀ t ∈ ts, ∀ u, item (t ++ separator :: u) = some (t, separator :: u))
    (hlast : ∀ t ∈ ts, item (t ++ v) = some (t, v)) (hv : Outside (· == separator) v) :
    moreItems separator item (ts.flatMap ([separator] ++ ·) ++ v) =
      (ts.flatMap ([separator] ++ ·), v) := by
  induction ts with
  | nil => exact moreItems_outside hv
  | cons t ts ih =>
    have hmore := ih (fun t' ht' => hitem t' (by simp [ht'])) fun t' ht' => hlast t' (by simp [ht'])
    have ht := scan_before_items (hitem t (by simp)) (hlast t (by simp)) ts
    rw [List.flatMap_cons, List.append_assoc, List.append_assoc, List.singleton_append,
      moreItems_cons ht, hmore]
    simp

/-- A list is matched if every item is matched in front of a separator and of what ends the
list. -/
theorem separated_join (hne : ts ≠ [])
    (hitem : ∀ t ∈ ts, ∀ u, item (t ++ separator :: u) = some (t, separator :: u))
    (hlast : ∀ t ∈ ts, item (t ++ v) = some (t, v)) (hv : Outside (· == separator) v) :
    separated separator item (Text.join [separator] ts ++ v) =
      some (Text.join [separator] ts, v) := by
  obtain ⟨t, ts, rfl⟩ := List.exists_cons_of_ne_nil hne
  have hmore := moreItems_flatMap (fun t' ht' => hitem t' (List.mem_cons_of_mem t ht'))
    (fun t' ht' => hlast t' (List.mem_cons_of_mem t ht')) hv
  have ht := scan_before_items (hitem t (by simp)) (hlast t (by simp)) ts
  rw [Text.join_cons, List.append_assoc]
  simp only [separated, ht, Option.map_some, hmore]

theorem flatMap_of_moreItems (separator : Char) (item : Lexeme) (t : Text) :
    ∃ ts : List Text, (moreItems separator item t).1 = ts.flatMap ([separator] ++ ·) ∧
      ∀ t ∈ ts, ∃ u v, item u = some (t, v) := by
  fun_induction moreItems separator item t with
  | case1 => exact ⟨[], rfl, by simp⟩
  | case2 => exact ⟨[], rfl, by simp⟩
  | case3 rest m rest' found more rest'' later ih =>
    obtain ⟨ts, hts, hall⟩ := ih
    rw [later] at hts
    refine ⟨m :: ts, by simpa using hts, fun t ht => ?_⟩
    rcases List.mem_cons.1 ht with rfl | ht
    · exact ⟨rest, rest', found⟩
    · exact hall t ht
  | case4 => exact ⟨[], rfl, by simp⟩

/-- The match of a list is made of matches of the item. -/
theorem join_of_separated (h : separated separator item t = some (m, rest)) :
    ∃ ts, ts ≠ [] ∧ m = Text.join [separator] ts ∧ ∀ t ∈ ts, ∃ u v, item u = some (t, v) := by
  obtain ⟨⟨first, r⟩, hfirst, he⟩ := Option.map_eq_some_iff.1 h
  simp only [Prod.mk.injEq] at he
  obtain ⟨ts, hts, hall⟩ := flatMap_of_moreItems separator item r
  refine ⟨first :: ts, by simp, by rw [Text.join_cons, ← hts, he.1], fun t' ht => ?_⟩
  rcases List.mem_cons.1 ht with rfl | ht
  · exact ⟨t, r, hfirst⟩
  · exact hall t' ht

end LegacyGradient.Lexeme
