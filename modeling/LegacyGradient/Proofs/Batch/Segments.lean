/-
  LegacyGradient.Proofs.Batch.Segments

  The segments of a property value. They are trimmed, none is empty, and they can be joined with
  commas without running into each other (`Segmented`). A list of this kind is the list of segments
  of its own join (`Segmented.segments_join`), so cutting a value once more changes nothing, and
  neither does cutting a segment (`segments_cut_once`).
-/
import LegacyGradient.Batch
import LegacyGradient.Proofs.Text.Cut
import LegacyGradient.Proofs.Text.Slices
import LegacyGradient.Proofs.Text.Trim

namespace LegacyGradient

namespace Text

variable {t : Text} {ts : List Text} {depth : Nat}

/-! ## Blanks do not cut -/

theorem sealedFrom_of_isBlank (h : ∀ c ∈ t, isBlank c = true) : SealedFrom 0 t :=
  sealedFrom_of_class rfl rfl rfl h

theorem uncut_trim (h : Uncut depth t) : Uncut depth (trim t) := by
  obtain ⟨s, u, ht, hs, -, -⟩ := exists_blanks_trim t
  rw [ht, uncut_append, uncut_append] at h
  have := h.1.2
  rwa [(sealedFrom_of_isBlank hs depth (Nat.zero_le depth)).2] at this

theorem depthAfter_trim (depth : Nat) (t : Text) : depthAfter depth (trim t) = depthAfter depth t := by
  obtain ⟨s, u, ht, hs, hu, -⟩ := exists_blanks_trim t
  have hsAfter := (sealedFrom_of_isBlank hs depth (Nat.zero_le depth)).2
  have huAfter := (sealedFrom_of_isBlank hu (depthAfter depth (trim t)) (Nat.zero_le _)).2
  conv =>
    rhs
    rw [ht]
  rw [depthAfter_append, depthAfter_append, hsAfter, huAfter]

theorem Joinable.map_trim (h : Joinable ts) : Joinable (ts.map trim) := by
  apply h.map
  intro t _ huncut
  exact ⟨uncut_trim huncut, fun hafter => by rwa [depthAfter_trim]⟩

end Text

namespace Batch

open Text (Joinable join commaBlank pieces trim)

variable {value s : Text} {ss ts : List Text}

/-! ## Lists of segments -/

/-- What a list has to be like in order to be the segments of a value. -/
structure Segmented (ss : List Text) : Prop where
  /-- No segment has blanks around it. -/
  trimmed : ∀ s ∈ ss, s.Trimmed
  /-- No segment is empty. -/
  ne_nil : ∀ s ∈ ss, s ≠ []
  /-- The segments do not run into each other when they are joined. -/
  joinable : Joinable ss

theorem filter_eq_self (h : ∀ s ∈ ss, s ≠ []) : ss.filter (!·.isEmpty) = ss := by
  apply List.filter_eq_self.2
  intro s hs
  rw [Bool.not_eq_true', List.isEmpty_eq_false_iff]
  exact h s hs

theorem segmented_segments (value : Text) : Segmented (segments value) where
  trimmed s hs := by
    obtain ⟨t, -, rfl⟩ := List.mem_map.1 (List.mem_filter.1 hs).1
    exact Text.trimmed_trim t
  ne_nil s hs := by
    have := (List.mem_filter.1 hs).2
    rwa [Bool.not_eq_true', List.isEmpty_eq_false_iff] at this
  joinable := (Text.joinable_pieces value).map_trim.sublist List.filter_sublist

/-- The segments of parts that are joined with commas are these parts without the blanks around
them, those that are empty then left out. -/
theorem segments_join_comma (h : Joinable ts) :
    segments (join [','] ts) = (ts.map trim).filter (!·.isEmpty) := by
  by_cases hts : ts = []
  · subst hts
    rfl
  · rw [segments, Text.pieces_join hts h]

/-- A list of segments joined as the new value is cut into the same segments again. -/
theorem Segmented.segments_join (h : Segmented ss) : segments (join commaBlank ss) = ss := by
  cases ss with
  | nil => rfl
  | cons s ss =>
    obtain ⟨htrimmed, hne, hjoinable⟩ := h
    have htrim : (s :: ss).map trim = s :: ss := by
      rw [List.map_congr_left (g := id) fun t ht => (htrimmed t ht).trim_eq, List.map_id]
    -- the blanks in front neither cut nor survive the trimming
    have hblank : Joinable (s :: ss.map (' ' :: ·)) := by
      obtain ⟨huncut, hafter, hrest⟩ := Text.joinable_cons_iff.1 hjoinable
      refine Text.joinable_cons_iff.2 ⟨huncut, fun hne => hafter (by simpa using hne), ?_⟩
      apply hrest.map
      intro t _ ht
      exact ⟨⟨by decide, ht⟩, id⟩
    have htrim' : (s :: ss.map (' ' :: ·)).map trim = (s :: ss).map trim := by
      rw [List.map_cons, List.map_cons, List.map_map]
      rfl
    rw [Text.join_commaBlank, segments_join_comma hblank, htrim', htrim, filter_eq_self hne]

/-! ## Cutting once more -/

/-- The segments are the parts of the value between its commas at depth zero, trimmed and without the
empty ones. -/
theorem segments_eq_slices (value : Text) :
    segments value = ((value.slices 0 value.cuts).map trim).filter (!·.isEmpty) := by
  rw [← Text.pieces_eq_slices]
  rfl

theorem Segmented.singleton (h : Segmented ss) (hs : s ∈ ss) : Segmented [s] where
  trimmed := by simpa using h.trimmed s hs
  ne_nil := by simpa using h.ne_nil s hs
  joinable := h.joinable.sublist (List.singleton_sublist.2 hs)

/-- A value is made of the parts between its commas at depth zero. Its segments are these parts
without the blanks around them, those that are empty left out. No segment has a further one in it,
and written as a list again the segments are found as they were. -/
theorem segments_cut_once (value : Text) :
    join [','] (value.slices 0 value.cuts) = value ∧
      segments value = ((value.slices 0 value.cuts).map trim).filter (!·.isEmpty) ∧
      (∀ s ∈ segments value, segments s = [s]) ∧
      segments (join commaBlank (segments value)) = segments value := by
  have hsegmented := segmented_segments value
  refine ⟨?_, segments_eq_slices value, fun s hs => ?_, hsegmented.segments_join⟩
  · rw [← Text.pieces_eq_slices, Text.join_pieces]
  · -- a segment is the list of one that it is joined from
    have hjoin : join commaBlank [s] = s := by simp [join, List.intercalate]
    have hsingle := (hsegmented.singleton hs).segments_join
    rwa [hjoin] at hsingle

/-- A segment that leaves a parenthesis open is the last, with what follows the commas in it. -/
theorem segments_cut_once_open :
    "f((b, c),,d".toList ∈ segments " a) ,\u3000,f((b, c),,d ".toList ∧
      segments "f((b, c),,d".toList = ["f((b, c),,d".toList] := by
  have hmem : "f((b, c),,d".toList ∈ segments " a) ,\u3000,f((b, c),,d ".toList := by
    rw [String.toList_ofList, String.toList_ofList]
    decide +kernel
  exact ⟨hmem, (segments_cut_once _).2.2.1 _ hmem⟩

end Batch

end LegacyGradient
