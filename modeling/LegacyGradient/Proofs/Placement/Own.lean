/-
  LegacyGradient.Proofs.Placement.Own

  The offsets that stops have by themselves. They are numbers, and the first and the last stop
  always have one. A stop is refused exactly if it has a position that is no percentage.
-/
import LegacyGradient.Placement
import LegacyGradient.Proofs.Binary64.Arithmetic
import LegacyGradient.Proofs.Traversal

namespace LegacyGradient

/-! ## Numbers and percentages -/

theorem Number.value_ne_nan (t : Text) : Number.value t ≠ .nan := by
  unfold Number.value
  split <;> exact Binary64.ofRatOrZero_ne_nan

theorem Percentage.scan_ne_nan {t rest : Text} {x : Binary64}
    (h : Percentage.scan t = some (x, rest)) : x ≠ .nan := by
  simp only [scan, Option.orElse_eq_orElse, Option.orElse_eq_or, Option.or_eq_some_iff,
    Option.bind_eq_bind, Option.bind_eq_some_iff, Prod.exists, Option.pure_def,
    Option.some.injEq, Prod.mk.injEq] at h
  rcases h with ⟨number, -, -, -, -, -, rfl, -⟩ | ⟨-, -, -, -, rfl, -⟩
  · exact Number.value_ne_nan number
  · rw [Binary64.zero_eq]
    exact Binary64.ranked_ne_nan

theorem Percentage.ofText?_ne_nan {t : Text} {x : Binary64} (h : Percentage.ofText? t = some x) :
    x ≠ .nan := by
  simp only [ofText?, wholeText] at h
  split at h
  · next hscan =>
    obtain rfl := Option.some.inj h
    exact scan_ne_nan hscan
  · contradiction

/-- The stop has a position that is no percentage. -/
def Stop.Misplaced (stop : Stop) : Prop :=
  ∃ position ∈ stop.position, Percentage.ofText? position = none

namespace Placement

open Binary64 (IsFactor)

variable {stops : List Stop} {stop : Stop} {last i : Nat} {own : List (Option Binary64)}
  {x : Binary64} {e : ConversionError}

/-! ## The offset of one stop -/

theorem hundred_isFactor : (100 : Binary64).IsFactor :=
  Binary64.ofNat_isFactor (by decide) (by decide)

theorem ownOffset_ne_nan (h : ownOffset last i stop = .ok (some x)) : x ≠ .nan := by
  cases hposition : stop.position with
  | some position =>
    cases hpercentage : Percentage.ofText? position with
    | some percentage =>
      simp only [ownOffset, hposition, hpercentage, Except.ok.injEq, Option.some.injEq] at h
      obtain rfl := h
      exact Binary64.div_ne_nan (Percentage.ofText?_ne_nan hpercentage) hundred_isFactor
    | none => simp [ownOffset, hposition, hpercentage] at h
  | none =>
    have hx : x = 0 ∨ x = 1 := by
      simp only [ownOffset, hposition, Except.ok.injEq] at h
      split at h
      · exact .inl (Option.some.inj h).symm
      · split at h
        · exact .inr (Option.some.inj h).symm
        · contradiction
    rcases hx with rfl | rfl <;> exact Binary64.ofRat_ne_nan

/-- The first and the last stop wait for nothing. -/
theorem ownOffset_ne_none (h : i = 0 ∨ i = last) : ownOffset last i stop ≠ .ok none := by
  cases hposition : stop.position with
  | some position =>
    cases hpercentage : Percentage.ofText? position <;> simp [ownOffset, hposition, hpercentage]
  | none =>
    by_cases hi : i = 0
    · simp [ownOffset, hposition, hi]
    · obtain rfl := h.resolve_left hi
      simp [ownOffset, hposition, hi]

theorem ownOffset_eq_error_iff :
    ownOffset last i stop = .error e ↔
      ∃ position ∈ stop.position, Percentage.ofText? position = none ∧
        e = .nonPercentagePosition stop.color position := by
  cases hposition : stop.position with
  | none => simp [ownOffset, hposition]
  | some position =>
    cases hpercentage : Percentage.ofText? position with
    | none => simp [ownOffset, hposition, hpercentage, eq_comm]
    | some percentage => simp [ownOffset, hposition, hpercentage]

theorem exists_ownOffset_iff : (∃ o, ownOffset last i stop = .ok o) ↔ ¬ stop.Misplaced := by
  cases hown : ownOffset last i stop with
  | ok o =>
    simp only [Except.ok.injEq, exists_eq', true_iff]
    rintro ⟨position, hposition, hnone⟩
    rw [ownOffset_eq_error_iff.2 ⟨position, hposition, hnone, rfl⟩] at hown
    contradiction
  | error e =>
    obtain ⟨position, hposition, hnone, -⟩ := ownOffset_eq_error_iff.1 hown
    simp only [reduceCtorEq, exists_const, false_iff, Classical.not_not]
    exact ⟨position, hposition, hnone⟩

/-! ## The offsets of all stops -/

/-- The offsets that the stops have by themselves, or the error of the first stop whose position
is no percentage. -/
def ownOffsets (stops : List Stop) : Except ConversionError (List (Option Binary64)) :=
  stops.zipIdx.mapM fun stop => ownOffset (stops.length - 1) stop.2 stop.1

theorem eq_ok_of_toOption {α ε : Type} {result : Except ε α} {a : α}
    (h : result.toOption = some a) : result = .ok a := by
  cases result with
  | error e => contradiction
  | ok b => exact congrArg Except.ok (Option.some.inj h)

theorem length_of_ownOffsets (h : ownOffsets stops = .ok own) : own.length = stops.length := by
  rw [(mapM_eq_ok h).1, List.length_zipIdx]

theorem ownOffset_of_ownOffsets (h : ownOffsets stops = .ok own) (hstop : stops[i]? = some stop) :
    ∃ o, ownOffset (stops.length - 1) i stop = .ok o ∧ own[i]? = some o :=
  (mapM_eq_ok h).2 i (stop, i) (by simp [List.getElem?_zipIdx, hstop])

/-- A stop that is an anchor has the offset `x` by itself. -/
def IsOwn (stops : List Stop) (i : Nat) (x : Binary64) : Prop :=
  ∃ stop, stops[i]? = some stop ∧ ownOffset (stops.length - 1) i stop = .ok (some x)

theorem IsOwn.ne_nan (h : IsOwn stops i x) : x ≠ .nan := by
  obtain ⟨stop, -, hx⟩ := h
  exact ownOffset_ne_nan hx

theorem IsOwn.lt_length (h : IsOwn stops i x) : i < stops.length := by
  obtain ⟨stop, hstop, -⟩ := h
  exact (List.getElem?_eq_some_iff.1 hstop).1

theorem IsOwn.unique {y : Binary64} (hx : IsOwn stops i x) (hy : IsOwn stops i y) : x = y := by
  obtain ⟨stop, hstop, hx⟩ := hx
  obtain ⟨stop', hstop', hy⟩ := hy
  obtain rfl := Option.some.inj (hstop.symm.trans hstop')
  exact Option.some.inj (Except.ok.inj (hx.symm.trans hy))

theorem isOwn_iff (h : ownOffsets stops = .ok own) :
    IsOwn stops i x ↔ own[i]? = some (some x) := by
  constructor
  · rintro ⟨stop, hstop, hx⟩
    obtain ⟨o, ho, hown⟩ := ownOffset_of_ownOffsets h hstop
    rw [hx] at ho
    obtain rfl := Except.ok.inj ho
    exact hown
  · intro hown
    have hi : i < stops.length := by
      rw [← length_of_ownOffsets h]
      exact (List.getElem?_eq_some_iff.1 hown).1
    obtain ⟨o, ho, hown'⟩ := ownOffset_of_ownOffsets h (List.getElem?_eq_getElem hi)
    rw [hown] at hown'
    obtain rfl := Option.some.inj hown'
    exact ⟨_, List.getElem?_eq_getElem hi, ho⟩

theorem ne_nan_of_mem_own (h : ownOffsets stops = .ok own) (hx : some x ∈ own) : x ≠ .nan := by
  obtain ⟨i, hi⟩ := List.mem_iff_getElem?.1 hx
  exact ((isOwn_iff h).2 hi).ne_nan

theorem getElem?_own_ne_none (h : ownOffsets stops = .ok own) (hi : i = 0 ∨ i = stops.length - 1) :
    own[i]? ≠ some none := by
  intro hnone
  have hlt : i < stops.length := by
    rw [← length_of_ownOffsets h]
    exact (List.getElem?_eq_some_iff.1 hnone).1
  obtain ⟨o, ho, hown⟩ := ownOffset_of_ownOffsets h (List.getElem?_eq_getElem hlt)
  rw [hnone] at hown
  obtain rfl := Option.some.inj hown
  exact ownOffset_ne_none hi ho

theorem head?_own_ne_none (h : ownOffsets stops = .ok own) : own.head? ≠ some none := by
  rw [List.head?_eq_getElem?]
  exact getElem?_own_ne_none h (.inl rfl)

theorem getLast?_own_ne_none (h : ownOffsets stops = .ok own) : own.getLast? ≠ some none := by
  rw [List.getLast?_eq_getElem?, length_of_ownOffsets h]
  exact getElem?_own_ne_none h (.inr rfl)

end Placement

end LegacyGradient
