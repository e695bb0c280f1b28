/-
  LegacyGradient.Proofs.Text.Line

  The lines of a sequence, of characters or of bytes: what stands between its line feeds
  (`linesBy`). A sequence is a line without a line feed, or it begins with a line that a line feed
  ends, and inductions over its lines follow these two cases (`line_induction`). The pass over a text
  finds the lines of this description (`Text.lines_eq`).
-/
import LegacyGradient.Text.Line

namespace LegacyGradient

section Sequences

variable {α : Type} [DecidableEq α] {feed ret : α} {l line rest : List α}

/-- A sequence without one `x` at its end. -/
def dropEnd (x : α) (l : List α) : List α := if l.getLast? = some x then l.dropLast else l

/-- The lines of a sequence. It is cut at its line feeds, and what such a cut ends is without one
carriage return at its end. After the last line feed stands a line only if anything does. -/
def linesBy (feed ret : α) (l : List α) : List (List α) :=
  let pieces := l.splitOn feed
  pieces.dropLast.map (dropEnd ret) ++ pieces.getLast?.toList.filter (!·.isEmpty)

theorem dropEnd_append_self (x : α) (l : List α) : dropEnd x (l ++ [x]) = l := by
  simp [dropEnd]

theorem dropEnd_of_getLast?_ne {x : α} (h : l.getLast? ≠ some x) : dropEnd x l = l := if_neg h

theorem linesBy_of_not_mem (h : feed ∉ l) (ret : α) :
    linesBy feed ret l = if l = [] then [] else [l] := by
  rw [linesBy, List.splitOn_eq_singleton h]
  cases l <;> rfl

theorem linesBy_line (h : feed ∉ line) (ret : α) (rest : List α) :
    linesBy feed ret (line ++ feed :: rest) = dropEnd ret line :: linesBy feed ret rest := by
  obtain ⟨piece, pieces, hpieces⟩ :=
    List.exists_cons_of_ne_nil (List.splitOn_ne_nil feed rest)
  rw [linesBy, linesBy, List.splitOn_append_cons_self_of_not_mem h, hpieces]
  rfl

/-- Every sequence comes from one without a line feed by lines put in front. -/
theorem line_induction {motive : List α → Prop} (feed : α)
    (last : ∀ l, feed ∉ l → motive l)
    (line : ∀ line rest, feed ∉ line → motive rest → motive (line ++ feed :: rest))
    (l : List α) : motive l := by
  induction hn : l.length using Nat.strongRecOn generalizing l with
  | _ n ih =>
    by_cases hfeed : feed ∈ l
    · obtain ⟨s, rest, rfl, hs⟩ := List.eq_append_cons_of_mem hfeed
      refine line s rest hs (ih rest.length ?_ rest rfl)
      rw [← hn, List.length_append, List.length_cons]
      omega
    · exact last l hfeed

theorem dropEnd_subset (x : α) (l : List α) : dropEnd x l ⊆ l := by
  rw [dropEnd]
  split
  · exact List.dropLast_subset l
  · exact List.Subset.refl l

/-- No line feed is left in a line. -/
theorem not_mem_of_mem_linesBy (h : line ∈ linesBy feed ret l) : feed ∉ line := by
  induction l using line_induction feed with
  | last l hl =>
    rw [linesBy_of_not_mem hl] at h
    split at h
    · contradiction
    · rwa [List.mem_singleton.1 h]
  | line first rest hfirst ih =>
    rw [linesBy_line hfirst] at h
    rcases List.mem_cons.1 h with rfl | h
    · exact fun hmem => hfirst (dropEnd_subset ret first hmem)
    · exact ih h

end Sequences

namespace Text

variable {t line rest : Text}

theorem linesFrom_append (h : '\n' ∉ line) (reversed rest : Text) :
    linesFrom reversed (line ++ rest) = linesFrom (line.reverse ++ reversed) rest := by
  induction line generalizing reversed with
  | nil => rfl
  | cons c line ih =>
    rw [List.mem_cons, not_or] at h
    rw [List.cons_append, linesFrom, if_neg (Ne.symm h.1), ih h.2, List.reverse_cons,
      List.append_assoc, List.singleton_append]

theorem endedLine_reverse (t : Text) : endedLine t.reverse = dropEnd '\r' t := by
  generalize hreversed : t.reverse = reversed
  obtain rfl : t = reversed.reverse := by rw [← hreversed, List.reverse_reverse]
  rw [dropEnd, List.getLast?_reverse, List.dropLast_reverse]
  cases reversed with
  | nil => rfl
  | cons c reversed =>
    by_cases hc : c = '\r'
    · subst hc
      rfl
    · simp [endedLine, hc]

theorem lines_of_not_mem (h : '\n' ∉ t) : lines t = if t = [] then [] else [t] := by
  have := linesFrom_append h [] []
  rw [List.append_nil, List.append_nil] at this
  rw [lines, this]
  simp [linesFrom]

theorem lines_line (h : '\n' ∉ line) (rest : Text) :
    lines (line ++ '\n' :: rest) = dropEnd '\r' line :: lines rest := by
  rw [lines, linesFrom_append h, List.append_nil, linesFrom, if_pos rfl, endedLine_reverse]
  rfl

/-- The pass over a text, which takes its characters one by one, finds its lines. -/
theorem lines_eq (t : Text) : lines t = linesBy '\n' '\r' t := by
  induction t using line_induction '\n' with
  | last t h => rw [lines_of_not_mem h, linesBy_of_not_mem h]
  | line line rest h ih => rw [lines_line h, linesBy_line h, ih]

/-- The carriage return of a last line that no line feed ends is kept. -/
example : lines "a\r\n\nb\r".toList = ["a".toList, [], "b\r".toList] := by decide

end Text

end LegacyGradient
