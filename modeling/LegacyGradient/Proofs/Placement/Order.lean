/-
  LegacyGradient.Proofs.Placement.Order

  Placed stops never go back. Rounding to hundredths keeps the order (`roundToHundredth_mono`), and
  raising restores it where an anchor lies before the offsets in front of it. Two kinds of runs have
  to be told apart. After the negative infinity the provisional offsets are NaN or the negative
  infinity again, and no stop is raised, since nothing lies before these. After any other anchor all
  provisional offsets are numbers, and raising puts them in order (`place_ordered`).
-/
import LegacyGradient.Proofs.Binary64.Monotone
import LegacyGradient.Proofs.Placement.Pass

namespace LegacyGradient.Placement

open Binary64 (Lowest)

variable {start next previous x y : Binary64} {xs : List Binary64} {distance j waiting : Nat}
  {own : List (Option Binary64)}

/-! ## Rounding to hundredths -/

/-- Of two numbers the one that is not the greater is not rounded to the greater hundredth, and both
are rounded to numbers. This holds for the infinities, for the two zeros, and for numbers so large
that their hundredfold is infinite. -/
theorem roundToHundredth_mono (h : x ≤ y) : roundToHundredth x ≤ roundToHundredth y := by
  have hproduct : x * 100 ≤ y * 100 := Binary64.mul_le_mul_right hundred_isFactor h
  have hsum : x * 100 + .half ≤ y * 100 + .half :=
    Binary64.add_le_add_right Binary64.half_isFactor.isFinite hproduct
  have hfloor : (x * 100 + .half).floor ≤ (y * 100 + .half).floor := Binary64.floor_le_floor hsum
  exact Binary64.div_le_div_right hundred_isFactor hfloor

/-- The negative zero and a finite number whose hundredfold is infinite. -/
theorem roundToHundredth_mono_overflow :
    Binary64.ranked true .zero ≤ .ofNat (2 ^ 1023) ∧
      roundToHundredth (.ofNat (2 ^ 1023)) = .ranked false .top ∧
      roundToHundredth (.ranked true .zero) ≤ roundToHundredth (.ofNat (2 ^ 1023)) := by
  have h : Binary64.ranked true .zero ≤ .ofNat (2 ^ 1023) := by decide +kernel
  refine ⟨h, by decide +kernel, ?_⟩
  -- without names for them, the two numbers would be computed when the theorem is applied
  generalize Binary64.ranked true .zero = x, Binary64.ofNat (2 ^ 1023) = y at h ⊢
  exact roundToHundredth_mono h

theorem roundToHundredth_ne_nan (h : x ≠ .nan) : roundToHundredth x ≠ .nan := by
  have hsum : x * 100 + .half ≠ .nan :=
    Binary64.add_ne_nan (Binary64.mul_ne_nan h hundred_isFactor) Binary64.half_isFactor.isFinite
  exact Binary64.div_ne_nan (Binary64.floor_ne_nan hsum) hundred_isFactor

theorem roundToHundredth_lowest (h : x.Lowest) : (roundToHundredth x).Lowest := by
  rcases h with rfl | rfl
  · exact .inl rfl
  · right
    rw [roundToHundredth, Binary64.top_mul hundred_isFactor,
      Binary64.top_add Binary64.half_isFactor.isFinite, Binary64.floor_top,
      Binary64.top_div hundred_isFactor]

/-! ## Provisional offsets -/

/-- Going any number of steps does not lead back. -/
theorem exists_steps_eq (start next : Binary64) (distance : Nat) (hpos : 0 < j)
    (hj : j < 2 ^ 64) : ∃ r, stepTo start next distance * .ofNat j = .ranked false r := by
  obtain ⟨r, hr⟩ := Binary64.atLeastZero_eq ((next - start) / .ofNat distance)
  rw [stepTo, hr]
  exact Binary64.mul_isFactor (Binary64.ofNat_isFactor hpos hj)

theorem provisional_lowest (h : start.Lowest) (hpos : 0 < j) (hj : j < 2 ^ 64) :
    (provisional start next distance j).Lowest := by
  obtain ⟨r, hr⟩ := exists_steps_eq start next distance hpos hj
  rw [provisional, hr]
  exact roundToHundredth_lowest h.add

theorem provisional_ne_nan (h : ¬ start.Lowest) (hpos : 0 < j) (hj : j < 2 ^ 64) :
    provisional start next distance j ≠ .nan := by
  obtain ⟨r, hr⟩ := exists_steps_eq start next distance hpos hj
  rw [provisional, hr]
  exact roundToHundredth_ne_nan (Binary64.add_ne_nan_of_not_lowest h)

/-! ## Raising -/

theorem raise_of_lowest (h : previous.Lowest) : raise previous x = x := if_neg h.not_lt

theorem raised_of_lowest (h : previous.Lowest) (hxs : ∀ x ∈ xs, x.Lowest) :
    raised previous xs = xs ∧ (xs.foldl raise previous).Lowest := by
  induction xs generalizing previous with
  | nil => exact ⟨rfl, h⟩
  | cons x xs ih =>
    obtain ⟨hx, hxs⟩ := List.forall_mem_cons.1 hxs
    obtain ⟨hraised, hlast⟩ := ih hx hxs
    rw [raised, List.foldl_cons, raise_of_lowest h]
    exact ⟨by rw [hraised], hlast⟩

theorem le_raise (hprevious : previous ≠ .nan) (hx : x ≠ .nan) :
    previous ≤ raise previous x ∧ x ≤ raise previous x := by
  rw [raise]
  split
  · next h => exact ⟨Binary64.le_self hprevious, Binary64.le_of_lt h⟩
  · next h => exact ⟨Binary64.le_of_not_lt hx hprevious h, Binary64.le_self hx⟩

/-- Raising puts numbers in order, and the last one is the greatest. -/
theorem pairwise_raised (hprevious : previous ≠ .nan) (hxs : ∀ x ∈ xs, x ≠ .nan) :
    (previous :: raised previous xs).Pairwise (· ≤ ·) ∧
      ∀ x ∈ previous :: raised previous xs, x ≤ xs.foldl raise previous := by
  induction xs generalizing previous with
  | nil => simpa [raised] using Binary64.le_self hprevious
  | cons x xs ih =>
    obtain ⟨hx, hxs⟩ := List.forall_mem_cons.1 hxs
    obtain ⟨hle, -⟩ := le_raise hprevious hx
    obtain ⟨hpairwise, hlast⟩ := ih (Binary64.ne_nan_of_le hle).2 hxs
    rw [raised, List.foldl_cons]
    refine ⟨List.pairwise_cons.2 ⟨fun y hy => ?_, hpairwise⟩, List.forall_mem_cons.2 ⟨?_, hlast⟩⟩
    · rcases List.mem_cons.1 hy with rfl | hy
      · exact hle
      · exact Binary64.le_trans hle (List.rel_of_pairwise_cons hpairwise hy)
    · exact Binary64.le_trans hle (hlast _ (List.mem_cons_self ..))

/-! ## Runs -/

/-- The two kinds of runs between anchors that are numbers. -/
theorem lowest_or_ne_nan (start next : Binary64) (hwaiting : waiting + 1 < 2 ^ 64) :
    (start.Lowest ∧ ∀ x ∈ provisionals start next waiting, x.Lowest) ∨
      ∀ x ∈ provisionals start next waiting, x ≠ .nan := by
  by_cases h : start.Lowest
  · refine .inl ⟨h, fun x hx => ?_⟩
    obtain ⟨j, hpos, hj, rfl⟩ := mem_provisionals.1 hx
    exact provisional_lowest h hpos (by omega)
  · refine .inr fun x hx => ?_
    obtain ⟨j, hpos, hj, rfl⟩ := mem_provisionals.1 hx
    exact provisional_ne_nan h hpos (by omega)

/-- Where the second of two anchors ends up is a number, before neither of them. -/
theorem le_anchorAfter (hstart : start ≠ .nan) (hnext : next ≠ .nan)
    (hwaiting : waiting + 1 < 2 ^ 64) :
    start ≤ anchorAfter start next waiting ∧ next ≤ anchorAfter start next waiting := by
  rcases lowest_or_ne_nan start next hwaiting with ⟨h, hxs⟩ | hxs
  · rw [anchorAfter, raise_of_lowest (raised_of_lowest h hxs).2]
    exact ⟨Binary64.le_of_not_lt hnext hstart h.not_lt, Binary64.le_self hnext⟩
  · have hle := (pairwise_raised hstart hxs).2 start (List.mem_cons_self ..)
    obtain ⟨hle', hnext'⟩ := le_raise (Binary64.ne_nan_of_le hle).2 hnext
    exact ⟨Binary64.le_trans hle hle', hnext'⟩

theorem run_ordered (hstart : start ≠ .nan) (hnext : next ≠ .nan)
    (hwaiting : waiting + 1 < 2 ^ 64) :
    (start :: run start next waiting).Pairwise (fun x y => ¬ y < x) ∧
      ∀ x ∈ start :: run start next waiting, ¬ anchorAfter start next waiting < x := by
  rcases lowest_or_ne_nan start next hwaiting with ⟨h, hxs⟩ | hxs
  · -- nothing is raised, and nothing lies before any element but the last
    obtain ⟨hraised, hlast⟩ := raised_of_lowest h hxs
    have hlowest : ∀ x ∈ start :: provisionals start next waiting, x.Lowest :=
      List.forall_mem_cons.2 ⟨h, hxs⟩
    have hanchor : anchorAfter start next waiting = next := raise_of_lowest hlast
    rw [run, hraised, hanchor, ← List.cons_append]
    refine ⟨List.pairwise_append.2 ⟨?_, List.pairwise_singleton .., ?_⟩, ?_⟩
    · exact List.pairwise_iff_forall_sublist.2 fun hsub =>
        (hlowest _ (hsub.subset (List.mem_cons_self ..))).not_lt
    · exact fun x hx y _ => (hlowest x hx).not_lt
    · intro x hx
      rcases List.mem_append.1 hx with hx | hx
      · exact (hlowest x hx).not_lt
      · rw [List.mem_singleton.1 hx]
        exact Binary64.not_lt_self
  · -- the second anchor is raised like the stops in front of it
    have hnumbers : ∀ x ∈ provisionals start next waiting ++ [next], x ≠ .nan := by
      simpa [or_imp, forall_and] using ⟨hxs, hnext⟩
    obtain ⟨hpairwise, hlast⟩ := pairwise_raised hstart hnumbers
    rw [List.foldl_append] at hlast
    rw [run_eq_raised]
    exact ⟨hpairwise.imp Binary64.not_lt_of_le, fun x hx => Binary64.not_lt_of_le (hlast x hx)⟩

/-! ## All stops -/

/-- All that comes after an anchor is in order, and nothing of it lies before the anchor. -/
theorem settledFrom_ordered (hstart : start ≠ .nan) (hown : ∀ x, some x ∈ own → x ≠ .nan)
    (hlength : waiting + own.length < 2 ^ 64) :
    (start :: settledFrom start waiting own).Pairwise fun x y => ¬ y < x := by
  -- the head of the list is the last anchor; it moves on with each run
  induction own generalizing start waiting with
  | nil => exact List.pairwise_singleton ..
  | cons o own ih =>
    rw [List.length_cons] at hlength
    have hown' : ∀ x, some x ∈ own → x ≠ .nan := fun x hx => hown x (List.mem_cons_of_mem _ hx)
    cases o with
    | none =>
      rw [settledFrom]
      exact ih hstart hown' (by omega)
    | some next =>
      have hnext := hown next (List.mem_cons_self ..)
      have hwaiting : waiting + 1 < 2 ^ 64 := by omega
      obtain ⟨hrun, hlast⟩ := run_ordered hstart hnext hwaiting
      have hanchor := (Binary64.ne_nan_of_le (le_anchorAfter hstart hnext hwaiting).1).2
      have hsettled := ih hanchor hown' (show 0 + own.length < 2 ^ 64 by omega)
      obtain ⟨hrest, hpairwise⟩ := List.pairwise_cons.1 hsettled
      rw [settledFrom, ← List.cons_append]
      refine List.pairwise_append.2 ⟨hrun, hpairwise, fun x hx y hy hyx => ?_⟩
      -- the anchor stands between the two
      have hnumber := (Binary64.ne_nan_of_le (Binary64.le_of_lt hyx)).2
      have hle := Binary64.le_of_not_lt hanchor hnumber (hlast x hx)
      exact hrest y hy (Binary64.lt_of_lt_of_le hyx hle)

theorem settled_ordered (hown : ∀ x, some x ∈ own → x ≠ .nan) (hlength : own.length < 2 ^ 64) :
    (settled own).Pairwise fun x y => ¬ y < x := by
  cases own with
  | nil => exact .nil
  | cons o own =>
    cases o with
    | none => exact .nil
    | some first =>
      rw [List.length_cons] at hlength
      exact settledFrom_ordered (hown first (List.mem_cons_self ..))
        (fun x hx => hown x (List.mem_cons_of_mem _ hx)) (by omega)

/-- Every stop of a list that fits in memory is placed, and none before a stop in front of it,
whatever percentages were written. -/
theorem place_ordered {stops : List Stop} {placed : List PlacedStop}
    (hlength : stops.length < 2 ^ 64) (h : place stops = .ok placed) :
    placed.length = stops.length ∧ (∀ p ∈ placed, p.offset.isSome) ∧
      ∀ i j x y, i < j → offsetAt placed i = some x → offsetAt placed j = some y → ¬ y < x := by
  obtain ⟨own, hown, hplaced, hsettled, hoffset⟩ := exists_settled_of_place h
  refine ⟨hplaced, fun p hp => ?_, fun i j x y hij hx hy => ?_⟩
  · obtain ⟨i, hi, rfl⟩ := List.mem_iff_getElem.1 hp
    have := hoffset i
    rw [offsetAt, List.getElem?_eq_getElem hi, List.getElem?_eq_getElem (by omega)] at this
    rw [Option.isSome_iff_exists]
    exact ⟨_, this⟩
  · have hordered := settled_ordered (fun x => ne_nan_of_mem_own hown)
      (by rwa [length_of_ownOffsets hown])
    rw [hoffset] at hx hy
    obtain ⟨hi, rfl⟩ := List.getElem?_eq_some_iff.1 hx
    obtain ⟨hj, rfl⟩ := List.getElem?_eq_some_iff.1 hy
    exact List.pairwise_iff_getElem.1 hordered i j hi hj hij

/-- An anchor that goes back is raised, with the stop that waits before it. -/
theorem place_ordered_three :
    ∃ placed, place [⟨"red".toList, some "60%".toList⟩, ⟨"lime".toList, none⟩,
        ⟨"blue".toList, some "-20%".toList⟩] = .ok placed ∧ placed.length = 3 ∧
      (∀ p ∈ placed, p.offset.isSome) ∧
      ∀ i j x y, i < j → offsetAt placed i = some x → offsetAt placed j = some y → ¬ y < x := by
  let red : Stop := ⟨"red".toList, some "60%".toList⟩
  let lime : Stop := ⟨"lime".toList, none⟩
  let blue : Stop := ⟨"blue".toList, some "-20%".toList⟩
  have h : place [red, lime, blue] = .ok
      [⟨red, some (60 / 100)⟩, ⟨lime, some (60 / 100)⟩, ⟨blue, some (60 / 100)⟩] :=
    eq_ok_of_toOption (by decide +kernel)
  exact ⟨_, h, place_ordered (by decide) h⟩

end LegacyGradient.Placement
