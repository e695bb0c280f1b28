/-
  LegacyGradient.Proofs.Placement.Explicit

  What comes after a stop with a position. Such a stop is an anchor wherever the list ends, so the
  stops up to it are placed, or refused, as if it were the last one (`place_append_of_isSome`). Two
  things could differ between the list that ends there and the longer one. The index of the last stop
  does, but it matters only to a stop without a position. And a later anchor starts a run of its own
  where the explicit stop ended up, so that nothing before it is touched again.
-/
import LegacyGradient.Proofs.Placement.Pass

namespace LegacyGradient.Placement

variable {stop : Stop} {before : List Stop} {last last' i : Nat} {own : List (Option Binary64)}

/-! ## Own offsets -/

/-- Where a list ends is seen only by a stop that has no position and is the last one. -/
theorem ownOffset_congr (h : stop.position.isSome ∨ i ≠ last ∧ i ≠ last') :
    ownOffset last i stop = ownOffset last' i stop := by
  cases hposition : stop.position with
  | some position => simp only [ownOffset, hposition]
  | none =>
    obtain ⟨hlast, hlast'⟩ := h.resolve_left (by simp [hposition])
    simp only [ownOffset, hposition, if_neg hlast, if_neg hlast']

/-- Up to an explicit stop the own offsets are those of the list that ends there; what follows only
adds to them. -/
theorem ownOffsets_append (h : stop.position.isSome) (before after : List Stop) :
    ownOffsets (before ++ [stop] ++ after) = do
      let own ← ownOffsets (before ++ [stop])
      let rest ← (after.zipIdx (before.length + 1)).mapM fun stop =>
        ownOffset (before.length + after.length) stop.2 stop.1
      return own ++ rest := by
  have hlast : (before ++ [stop] ++ after).length - 1 = before.length + after.length := by
    simp only [List.length_append, List.length_singleton]
    omega
  have hlast' : (before ++ [stop]).length - 1 = before.length := by simp
  -- the stops in front of the explicit one are the last in neither list
  have hown : ∀ s ∈ (before ++ [stop]).zipIdx,
      ownOffset (before.length + after.length) s.2 s.1 = ownOffset before.length s.2 s.1 := by
    rintro ⟨s, i⟩ hs
    have hget : (before ++ [stop])[i]? = some s := List.mem_zipIdx_iff_getElem?.1 hs
    have hi : i < (before ++ [stop]).length := (List.getElem?_eq_some_iff.1 hget).1
    rw [List.length_append, List.length_singleton] at hi
    apply ownOffset_congr
    by_cases hfront : i < before.length
    · right
      show i ≠ before.length + after.length ∧ i ≠ before.length
      omega
    · left
      obtain rfl : i = before.length := by omega
      rw [List.getElem?_append_right (Nat.le_refl _), Nat.sub_self] at hget
      obtain rfl := Option.some.inj hget
      exact h
  rw [ownOffsets, hlast, List.zipIdx_append, List.mapM_append, mapM_congr hown, ownOffsets, hlast',
    Nat.zero_add, List.length_append, List.length_singleton]

/-- The own offsets of a list that ends with an explicit stop end with a number. -/
theorem exists_own_eq_concat (h : ownOffsets (before ++ [stop]) = .ok own) :
    ∃ own' x, own = own' ++ [some x] ∧ own'.length = before.length ∧ own'.head? ≠ some none := by
  have hlength := length_of_ownOffsets h
  rw [List.length_append, List.length_singleton] at hlength
  have hne : own ≠ [] := List.ne_nil_of_length_eq_add_one hlength
  have hconcat := List.dropLast_concat_getLast hne
  cases hlast : own.getLast hne with
  | none =>
    refine absurd ?_ (getLast?_own_ne_none h)
    rw [List.getLast?_eq_some_getLast hne, hlast]
  | some x =>
    rw [hlast] at hconcat
    refine ⟨own.dropLast, x, hconcat.symm, by simp [hlength], fun hhead => ?_⟩
    apply head?_own_ne_none h
    rw [← hconcat, List.head?_append, hhead]
    rfl

/-! ## Placement -/

/-- The offsets up to a number in the list are settled without regard to what follows it. -/
theorem take_settled (h : own.head? ≠ some none) (x : Binary64) (rest : List (Option Binary64)) :
    (settled (own ++ [some x] ++ rest)).take (own.length + 1) = settled (own ++ [some x]) := by
  obtain ⟨done, anchor, hlength, hdone⟩ := exists_settled_append h x
  have hcut : own ++ [some x] ++ rest = own ++ some x :: rest := by simp
  have hlength' : own.length + 1 = (done ++ [anchor]).length := by simp [hlength]
  have hwhole : done ++ anchor :: settledFrom anchor 0 rest =
      (done ++ [anchor]) ++ settledFrom anchor 0 rest := by simp
  rw [hcut, hdone, hdone, hwhole, hlength', List.take_left]
  rfl

/-- The stops up to an explicit one are placed as if it were the last. What stands after it can make
the placement fail, but if they are refused themselves, it fails for that. -/
theorem place_append_of_isSome (before after : List Stop) (stop : Stop)
    (h : stop.position.isSome) :
    (∀ e, place (before ++ [stop]) = .error e → place (before ++ [stop] ++ after) = .error e) ∧
    ∀ placed, place (before ++ [stop] ++ after) = .ok placed →
      place (before ++ [stop]) = .ok (placed.take (before.length + 1)) := by
  simp only [place_eq, ownOffsets_append h]
  cases hown : ownOffsets (before ++ [stop]) with
  | error e =>
    constructor
    · rintro e' he
      obtain rfl := Except.error.inj he
      rfl
    · intro placed hplaced
      contradiction
  | ok own =>
    refine ⟨fun e he => by contradiction, fun placed hplaced => ?_⟩
    cases hrest : (after.zipIdx (before.length + 1)).mapM fun stop =>
        ownOffset (before.length + after.length) stop.2 stop.1 with
    | error e =>
      rw [hrest] at hplaced
      contradiction
    | ok rest =>
      rw [hrest] at hplaced
      obtain rfl := Except.ok.inj hplaced
      obtain ⟨own', x, rfl, hlength, hhead⟩ := exists_own_eq_concat hown
      have hstops : (before ++ [stop] ++ after).take (before.length + 1) = before ++ [stop] :=
        List.take_left' (by simp)
      rw [List.take_zipWith, hstops, ← hlength, take_settled hhead]
      rfl

/-- The stop at the end goes back behind the explicit one and raises nothing in front of it; with a
length for the explicit stop, the placement fails for this stop and not for the one at the end. -/
theorem place_append_of_isSome_two :
    (∃ placed, place [⟨"red".toList, none⟩, ⟨"lime".toList, none⟩, ⟨"blue".toList, some "50%".toList⟩,
        ⟨"gold".toList, none⟩, ⟨"navy".toList, some "20%".toList⟩] = .ok placed ∧
      place [⟨"red".toList, none⟩, ⟨"lime".toList, none⟩, ⟨"blue".toList, some "50%".toList⟩] =
        .ok (placed.take 3)) ∧
    ∃ e, place [⟨"red".toList, none⟩, ⟨"lime".toList, some "2px".toList⟩] = .error e ∧
      place [⟨"red".toList, none⟩, ⟨"lime".toList, some "2px".toList⟩,
        ⟨"blue".toList, some "3em".toList⟩] = .error e := by
  let red : Stop := ⟨"red".toList, none⟩
  let lime : Stop := ⟨"lime".toList, none⟩
  let blue : Stop := ⟨"blue".toList, some "50%".toList⟩
  let gold : Stop := ⟨"gold".toList, none⟩
  let navy : Stop := ⟨"navy".toList, some "20%".toList⟩
  let limeLength : Stop := ⟨"lime".toList, some "2px".toList⟩
  let blueLength : Stop := ⟨"blue".toList, some "3em".toList⟩
  have hplaced : place ([red, lime] ++ [blue] ++ [gold, navy]) = .ok
      [⟨red, some 0⟩, ⟨lime, some (.ofRat (1 / 4))⟩, ⟨blue, some (50 / 100)⟩,
        ⟨gold, some (50 / 100)⟩, ⟨navy, some (50 / 100)⟩] :=
    eq_ok_of_toOption (by decide +kernel)
  have hrefused : place ([red] ++ [limeLength]) =
      .error (.nonPercentagePosition "lime".toList "2px".toList) :=
    place_eq_error_iff.2 ⟨[red], limeLength, [], "2px".toList, rfl,
      fun s hs hmisplaced => by
        obtain rfl := List.mem_singleton.1 hs
        obtain ⟨position, hposition, -⟩ := hmisplaced
        contradiction,
      rfl, by decide +kernel, rfl⟩
  exact ⟨⟨_, hplaced, (place_append_of_isSome [red, lime] [gold, navy] blue rfl).2 _ hplaced⟩,
    _, hrefused, (place_append_of_isSome [red] [blueLength] limeLength rfl).1 _ hrefused⟩

end LegacyGradient.Placement
