/-
  LegacyGradient.Proofs.Stop.Pieces

  Reading a list of stops from any text, also from one that no gradient has. Every piece between two
  commas at depth zero has to begin with a color, and is then one stop; the first piece that does not
  is the one that the list is refused for (`listOfText_outcome`). The pieces are the same as for the
  segments of a property value, but here an empty piece counts, and is refused.
-/
import LegacyGradient.Proofs.Batch.Segments
import LegacyGradient.Proofs.Traversal

namespace LegacyGradient.Stop

open Text (cuts slices)

variable {piece : Text} {stop : Stop} {e : ConversionError}

/-! ## One piece -/

/-- A color stands at the front of the piece, behind the blanks there. -/
def BeginsWithColor (piece : Text) : Prop := (Color.lexeme piece.trim).isSome

instance : Decidable (BeginsWithColor piece) := inferInstanceAs (Decidable (_ = true))

/-- The stop has the color at the front of the piece, and for its position what follows that color,
without the blanks around it, if anything is left. -/
def ReadFrom (piece : Text) (stop : Stop) : Prop :=
  ∃ rest, Color.lexeme piece.trim = some (stop.color, rest) ∧
    stop.position = if rest.trim = [] then none else some rest.trim

theorem ofPiece_eq_ok_iff : ofPiece piece = .ok stop ↔ ReadFrom piece stop := by
  cases hcolor : Color.lexeme piece.trim with
  | none => simp [ofPiece, ReadFrom, hcolor]
  | some found =>
    obtain ⟨color, rest⟩ := found
    obtain ⟨color', position⟩ := stop
    simp only [ofPiece, ReadFrom, hcolor, List.isEmpty_iff, Except.ok.injEq, Stop.mk.injEq,
      Option.some.injEq, Prod.mk.injEq]
    constructor
    · rintro ⟨rfl, rfl⟩
      exact ⟨rest, ⟨rfl, rfl⟩, rfl⟩
    · rintro ⟨rest', ⟨rfl, rfl⟩, rfl⟩
      exact ⟨rfl, rfl⟩

theorem ofPiece_eq_error_iff :
    ofPiece piece = .error e ↔ ¬ BeginsWithColor piece ∧ e = .malformedStop piece.trim := by
  cases hcolor : Color.lexeme piece.trim with
  | none => simp [ofPiece, BeginsWithColor, hcolor, eq_comm]
  | some found => simp [ofPiece, BeginsWithColor, hcolor]

theorem exists_ofPiece_iff : (∃ stop, ofPiece piece = .ok stop) ↔ BeginsWithColor piece := by
  cases hcolor : Color.lexeme piece.trim with
  | none => simp [ofPiece, BeginsWithColor, hcolor]
  | some found => simp [ofPiece, BeginsWithColor, hcolor]

/-! ## The list -/

theorem listOfText_eq (t : Text) : listOfText t = (t.slices 0 t.cuts).mapM ofPiece := by
  rw [listOfText, Text.pieces_eq_slices]

/-- A text is a list of stops if every part of it between commas at depth zero begins with a color.
Then each part gives a stop, in order. Otherwise the text of the first part that does not begin with
a color is the error. The parts that are not empty are the segments of the text as a value. -/
theorem listOfText_outcome (t : Text) :
    ((∃ stops, listOfText t = .ok stops) ↔ ∀ piece ∈ t.slices 0 t.cuts, BeginsWithColor piece) ∧
    (∀ stops, listOfText t = .ok stops → stops.length = t.cuts.length + 1 ∧
      ∀ (i : Nat) (piece : Text), (t.slices 0 t.cuts)[i]? = some piece →
        ∃ stop, stops[i]? = some stop ∧ ReadFrom piece stop) ∧
    (∀ e, listOfText t = .error e ↔ ∃ before piece after,
      t.slices 0 t.cuts = before ++ piece :: after ∧ (∀ p ∈ before, BeginsWithColor p) ∧
        ¬ BeginsWithColor piece ∧ e = .malformedStop piece.trim) ∧
    Batch.segments t = ((t.slices 0 t.cuts).map Text.trim).filter (!·.isEmpty) := by
  rw [listOfText_eq]
  refine ⟨?_, fun stops hstops => ⟨?_, fun i piece hpiece => ?_⟩, fun e => ?_,
    Batch.segments_eq_slices t⟩
  · simp only [exists_mapM_eq_ok_iff, exists_ofPiece_iff]
  · rw [(mapM_eq_ok hstops).1, Text.length_slices]
  · obtain ⟨stop, hstop, hget⟩ := (mapM_eq_ok hstops).2 i piece hpiece
    exact ⟨stop, hget, ofPiece_eq_ok_iff.1 hstop⟩
  · simp only [mapM_eq_error_iff, exists_ofPiece_iff, ofPiece_eq_error_iff]

/-- The parenthesis that closes nothing belongs to the position, and so does the comma behind the one
that stays open; an empty piece is refused before the length after it. -/
theorem listOfText_outcome_two :
    (∃ stops stop, listOfText "red 10%,rgb(1, 2 3)) x, lime(a,b".toList = .ok stops ∧
      stops.length = 3 ∧ stops[2]? = some stop ∧ ReadFrom " lime(a,b".toList stop) ∧
    listOfText "red,, 12px,lime".toList = .error (.malformedStop []) := by
  have hcuts : cuts "red 10%,rgb(1, 2 3)) x, lime(a,b".toList = [7, 22] := by
    decide +kernel
  have hslices : slices "red 10%,rgb(1, 2 3)) x, lime(a,b".toList 0 [7, 22] =
      ["red 10%".toList, "rgb(1, 2 3)) x".toList, " lime(a,b".toList] := by
    decide +kernel
  have hslices' : slices "red,, 12px,lime".toList 0 (cuts "red,, 12px,lime".toList) =
      ["red".toList] ++ [] :: [" 12px".toList, "lime".toList] := by
    decide +kernel
  constructor
  · obtain ⟨hok, hread, -, -⟩ := listOfText_outcome "red 10%,rgb(1, 2 3)) x, lime(a,b".toList
    rw [hcuts, hslices] at hok
    obtain ⟨stops, hstops⟩ := hok.2 (by decide +kernel)
    obtain ⟨hlength, hall⟩ := hread stops hstops
    rw [hcuts] at hlength hall
    obtain ⟨stop, hget, hstop⟩ := hall 2 " lime(a,b".toList (by rw [hslices]; rfl)
    exact ⟨stops, stop, hstops, hlength, hget, hstop⟩
  · exact ((listOfText_outcome "red,, 12px,lime".toList).2.2.1 _).2
      ⟨_, _, _, hslices', by decide +kernel, by decide +kernel, rfl⟩

end LegacyGradient.Stop
