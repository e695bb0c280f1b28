/-
  LegacyGradient.Proofs.Placement.Overflow

  Which placements are finite. A percentage may be written with so many digits that it is read as
  infinite, and nothing else makes an offset infinite or NaN. The positive infinity stays, and so does
  the negative one of the first stop; a later stop at the negative infinity is moved up to the stop
  before it (`offsets_finite_iff`).
-/
import LegacyGradient.Proofs.Placement.Anchors
import LegacyGradient.Proofs.Placement.Finite

namespace LegacyGradient

/-- The stop has a percentage that is read as the infinity with this sign. -/
def Stop.Overflows (negative : Bool) (stop : Stop) : Prop :=
  ∃ position ∈ stop.position, Percentage.ofText? position = some (.ranked negative .top)

namespace Placement

open Binary64 (Rank Within nearestRank)

variable {x : Binary64} {own : List (Option Binary64)} {stops : List Stop} {stop : Stop}
  {placed : List PlacedStop} {last i : Nat} {s : Bool}

/-! ## Percentages that are read as infinite -/

theorem div_hundred_cases (hx : x ≠ .nan) :
    x.IsFinite ∧ Within farthest (x / 100) ∨ ∃ s, x = .ranked s .top ∧ x / 100 = .ranked s .top := by
  obtain ⟨r', hr', hzero, htop, hval⟩ := Binary64.ofNat_eq (n := 100) (by decide) (by decide)
  have hhundred : (100 : Binary64) = .ranked false r' := hr'
  obtain ⟨s, r, rfl⟩ := Binary64.exists_ranked hx
  rw [hhundred]
  by_cases hr : r = .top
  · right
    exact ⟨s, by rw [hr], by rw [hr, Binary64.top_div ⟨r', rfl, hzero, htop⟩]⟩
  · left
    have hx : Within largest (.ranked s r) := ⟨s, r, rfl, le_largest hr⟩
    have hdiv : Within _ (.ranked s r / .ranked false r') := hx.div largest_ne_top hzero htop
    rw [hval, Nat.cast_ofNat] at hdiv
    exact ⟨hr, hdiv⟩

/-- An offset is infinite if it comes from a percentage that is. -/
theorem ownOffset_cases (h : ownOffset last i stop = .ok (some x)) :
    Within farthest x ∧ (∀ s, ¬ stop.Overflows s) ∨ ∃ s, x = .ranked s .top ∧ stop.Overflows s := by
  cases hposition : stop.position with
  | some position =>
    cases hpercentage : Percentage.ofText? position with
    | some percentage =>
      simp only [ownOffset, hposition, hpercentage, Except.ok.injEq, Option.some.injEq] at h
      obtain rfl := h
      rcases div_hundred_cases (Percentage.ofText?_ne_nan hpercentage) with ⟨hfinite, hx⟩ | ⟨s, rfl, hx⟩
      · refine .inl ⟨hx, ?_⟩
        rintro s ⟨position', hposition', hs⟩
        obtain rfl := Option.some.inj (hposition.symm.trans hposition')
        obtain rfl := Option.some.inj (hpercentage.symm.trans hs)
        exact hfinite rfl
      · exact .inr ⟨s, hx, position, hposition, hpercentage⟩
    | none => simp [ownOffset, hposition, hpercentage] at h
  | none =>
    have hx : Within farthest x := by
      simp only [ownOffset, hposition, Except.ok.injEq] at h
      split at h
      · obtain rfl := Option.some.inj h
        exact ⟨false, .zero, Binary64.zero_eq, Nat.zero_le _⟩
      · split at h
        · obtain rfl := Option.some.inj h
          refine ⟨_, _, rfl, ?_⟩
          rw [Nat.cast_one]
          exact nearestRank_one_le_farthest
        · contradiction
    refine .inl ⟨hx, ?_⟩
    rintro s ⟨position, hposition', -⟩
    rw [hposition] at hposition'
    contradiction

theorem ownOffset_overflows_iff (h : ownOffset last i stop = .ok (some x)) :
    stop.Overflows s ↔ x = .ranked s .top := by
  rcases ownOffset_cases h with ⟨hx, hnone⟩ | ⟨s', rfl, position, hposition, hs'⟩
  · refine iff_of_false (hnone s) ?_
    rintro rfl
    exact hx.isFinite farthest_ne_top rfl
  · constructor
    · rintro ⟨position', hposition', hs⟩
      obtain rfl := Option.some.inj (hposition.symm.trans hposition')
      exact Option.some.inj (hs'.symm.trans hs)
    · intro hs
      rw [hs] at hs'
      exact ⟨position, hposition, hs'⟩

/-- Which stops overflow can be told from the own offsets. -/
theorem overflows_iff (hown : ownOffsets stops = .ok own) (hstop : stops[i]? = some stop) :
    stop.Overflows s ↔ IsOwn stops i (.ranked s .top) := by
  obtain ⟨o, ho, hget⟩ := ownOffset_of_ownOffsets hown hstop
  cases o with
  | some x =>
    rw [ownOffset_overflows_iff ho, isOwn_iff hown, hget, Option.some.injEq, Option.some.injEq]
  | none =>
    rw [isOwn_iff hown, hget]
    constructor
    · rintro ⟨position, hposition, hs⟩
      rw [ownOffset, hposition] at ho
      simp [hs] at ho
    · intro hnone
      simp at hnone

/-! ## All stops -/

/-- No anchor ends up before its own offset. -/
theorem exists_settled_ge (hlength : stops.length < 2 ^ 64) (hown : ownOffsets stops = .ok own) :
    ∀ t q, IsOwn stops t q → ∃ x, (settled own)[t]? = some x ∧ q ≤ x := by
  intro t
  -- the anchor in front is settled already
  induction t using Nat.strongRecOn with
  | ind t ih =>
    intro q hq
    rcases Nat.eq_zero_or_pos t with rfl | hpos
    · exact ⟨q, settled_zero ((isOwn_iff hown).1 hq), Binary64.le_self hq.ne_nan⟩
    · -- it is raised to what comes before it, or keeps its own offset
      obtain ⟨f, hft⟩ := exists_nextAnchor hown hq hpos
      obtain ⟨y, hy⟩ := hft.2.1
      obtain ⟨start, hstart, hle⟩ := ih f hft.1 y hy
      have hlt := hq.lt_length
      have hwaiting : t - f - 1 + 1 < 2 ^ 64 := by omega
      have hstart_ne := (Binary64.ne_nan_of_le hle).2
      exact ⟨_, settled_next hown hft hstart hq, (le_anchorAfter hstart_ne hq.ne_nan hwaiting).2⟩

theorem settled_within (hfirst : ∀ first, own.head? = some (some first) → Within farthest first)
    (hown : ∀ x, some x ∈ own → BoundedAbove x) (hlength : own.length ≤ 2 ^ 50) :
    ∀ x ∈ settled own, Within farthest x := by
  cases own with
  | nil => simp [settled]
  | cons o own =>
    cases o with
    | none => simp [settled]
    | some first =>
      rw [List.length_cons] at hlength
      have hstart := hfirst first rfl
      rw [settled]
      refine List.forall_mem_cons.2 ⟨hstart, ?_⟩
      exact settledFrom_within hstart (fun x hx => hown x (List.mem_cons_of_mem _ hx)) (by omega)

theorem forall_offset_iff (hlength : placed.length = stops.length)
    (hsettled : (settled own).length = stops.length)
    (hoffset : ∀ i, offsetAt placed i = (settled own)[i]?) :
    (∀ p ∈ placed, (p.offset.getD 0).IsFinite) ↔ ∀ x ∈ settled own, x.IsFinite := by
  constructor
  · intro hall x hx
    obtain ⟨i, hi, rfl⟩ := List.mem_iff_getElem.1 hx
    have hi' : i < placed.length := by omega
    have hget := hoffset i
    rw [offsetAt, List.getElem?_eq_getElem hi, List.getElem?_eq_getElem hi', Option.bind_some] at hget
    have := hall _ (List.getElem_mem hi')
    rwa [hget] at this
  · intro hall p hp
    obtain ⟨i, hi, rfl⟩ := List.mem_iff_getElem.1 hp
    have hi' : i < (settled own).length := by omega
    have hget := hoffset i
    rw [offsetAt, List.getElem?_eq_getElem hi, List.getElem?_eq_getElem hi', Option.bind_some] at hget
    rw [hget]
    exact hall _ (List.getElem_mem hi')

/-- All offsets of a list that is not too long are finite exactly if no percentage is read as
infinite, other than the negative infinity of a stop that is not the first: this one is raised. -/
theorem offsets_finite_iff (hlength : stops.length ≤ 2 ^ 50) (h : place stops = .ok placed) :
    (∀ p ∈ placed, (p.offset.getD 0).IsFinite) ↔
      (∀ stop ∈ stops, ¬ stop.Overflows false) ∧ ∀ stop ∈ stops.head?, ¬ stop.Overflows true := by
  obtain ⟨own, hown, hplaced, hsettled, hoffset⟩ := exists_settled_of_place h
  rw [forall_offset_iff hplaced hsettled hoffset]
  constructor
  · intro hall
    constructor
    · -- the infinite anchor is not placed before itself
      intro stop hstop hover
      obtain ⟨i, hi⟩ := List.mem_iff_getElem?.1 hstop
      obtain ⟨x, hx, hle⟩ :=
        exists_settled_ge (by omega) hown i _ ((overflows_iff hown hi).1 hover)
      exact Binary64.not_isFinite_of_top_le hle (hall x (List.mem_of_getElem? hx))
    · -- nothing moves the first stop
      intro stop hstop hover
      have hi : stops[0]? = some stop := by rwa [← List.head?_eq_getElem?]
      have hx := settled_zero ((isOwn_iff hown).1 ((overflows_iff hown hi).1 hover))
      exact hall _ (List.mem_of_getElem? hx) rfl
  · -- otherwise all anchors but the first are bounded from above at least, and the first on both sides
    rintro ⟨hforth, hback⟩ x hx
    refine (settled_within ?_ ?_ ?_ x hx).isFinite farthest_ne_top
    · intro first hfirst
      obtain ⟨stop, hstop, hfirst⟩ :=
        (isOwn_iff hown).2 (List.head?_eq_getElem? (l := own) ▸ hfirst)
      rcases ownOffset_cases hfirst with ⟨hwithin, -⟩ | ⟨s, -, hover⟩
      · exact hwithin
      · cases s with
        | false => exact absurd hover (hforth stop (List.mem_of_getElem? hstop))
        | true => exact absurd hover (hback stop (List.head?_eq_getElem? ▸ hstop))
    · intro x hx
      obtain ⟨i, hi⟩ := List.mem_iff_getElem?.1 hx
      obtain ⟨stop, hstop, hx⟩ := (isOwn_iff hown).2 hi
      rcases ownOffset_cases hx with ⟨hwithin, -⟩ | ⟨s, rfl, hover⟩
      · exact .inl hwithin
      · cases s with
        | false => exact absurd hover (hforth stop (List.mem_of_getElem? hstop))
        | true => exact .inr rfl
    · rwa [length_of_ownOffsets hown]

end Placement

end LegacyGradient
