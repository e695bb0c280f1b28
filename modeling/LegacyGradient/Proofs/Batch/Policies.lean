/-
  LegacyGradient.Proofs.Batch.Policies

  What the three policies have in common. They convert the same segments and find the same failures;
  they differ only in what they make of a failure. Leaving it out and keeping its source always give
  a batch, and giving up tells the first failure, or gives the batch of the other two
  (`policies_agree`).
-/
import LegacyGradient.Proofs.Batch.Collected
import Mathlib.Data.List.Basic

namespace LegacyGradient.Batch

open Text (join commaBlank)

variable {options : Options} {value : Text}

/-! ## What does not depend on the policy -/

theorem ofText_of_ne_abort (h : options.policy ≠ .abort) (value : Text) :
    ofText options value = .ok (collected options value) :=
  ofText_eq_ok_iff.2 ⟨fun habort => absurd habort h, rfl⟩

/-- Without failures it makes no difference what is to be done about them. -/
theorem collected_of_no_failures (h : (collected options value).failures = []) (policy : Policy) :
    collected { options with policy := policy } value = collected options value := by
  have hpart : ∀ s ∈ segments value, part? { options with policy := policy } s = part? options s := by
    intro s hs
    have hsame : convert { options with policy := policy } s = convert options s := rfl
    rw [part?, part?, hsame]
    cases hconvert : convert options s with
    | ok legacy => rfl
    | error e =>
      -- a failing segment would be among the failures
      obtain ⟨k, hk⟩ := List.mem_iff_getElem?.1 hs
      have hmem : (⟨k, s, e⟩ : Failure) ∈ (collected options value).failures :=
        mem_failuresFrom_iff.2 ⟨k, (Nat.zero_add k).symm, hk, hconvert⟩
      rw [h] at hmem
      contradiction
  rw [collected, List.filterMap_congr hpart]
  rfl

/-! ## The new value -/

theorem filterMap_part?_skip (h : options.policy = .skip) (ss : List Text) :
    ss.filterMap (part? options) = ss.filterMap fun s => (convert options s).toOption := by
  have hpart : part? options = fun s => (convert options s).toOption := by
    funext s
    rw [part?, h]
    cases convert options s <;> rfl
  rw [hpart]

/-- The policies agree on what is converted and on the failures, which are the segments that do not
convert, in order. A failure is left out of the new value or kept in its place, or else the first
one is all that is told. That gradients are converted side by side changes nothing. -/
theorem policies_agree (minStops : Nat) (value : Text) :
    ∃ (converted : Nat) (failures : List Failure),
      converted + failures.length = (segments value).length ∧
      failures.Pairwise (·.index < ·.index) ∧
      (∀ f, f ∈ failures ↔ (segments value)[f.index]? = some f.segment ∧
        convert { minStops } f.segment = .error f.error) ∧
      ∀ parallel,
        ofText { policy := .skip, parallel, minStops } value = .ok {
          value := join commaBlank
            ((segments value).filterMap fun s => (convert { minStops } s).toOption)
          converted, failures } ∧
        ofText { policy := .keepSource, parallel, minStops } value = .ok {
          value := join commaBlank ((segments value).map (kept { minStops }))
          converted, failures } ∧
        (∀ f, ofText { policy := .abort, parallel, minStops } value = .error f ↔
          failures.head? = some f) ∧
        ∀ batch, ofText { policy := .abort, parallel, minStops } value = .ok batch ↔
          failures = [] ∧ ofText { policy := .skip, parallel, minStops } value = .ok batch ∧
            ofText { policy := .keepSource, parallel, minStops } value = .ok batch := by
  have hmem : ∀ f, f ∈ failuresFrom { minStops } 0 (segments value) ↔
      (segments value)[f.index]? = some f.segment ∧
        convert { minStops } f.segment = .error f.error := by
    intro f
    rw [mem_failuresFrom_iff]
    constructor
    · rintro ⟨k, hk, hget, herror⟩
      rw [hk, Nat.zero_add]
      exact ⟨hget, herror⟩
    · rintro ⟨hget, herror⟩
      exact ⟨f.index, (Nat.zero_add _).symm, hget, herror⟩
  refine ⟨_, _, countP_add_length_failuresFrom { minStops } 0 _, pairwise_failuresFrom _ _ _, hmem,
    fun parallel => ⟨?_, ?_, fun f => ?_, fun batch => ?_⟩⟩
  · rw [ofText_of_ne_abort (by simp), collected, filterMap_part?_skip rfl]
    rfl
  · rw [ofText_of_ne_abort (by simp), collected, filterMap_part?_keepSource rfl]
    rfl
  · rw [ofText_eq_error_iff]
    exact and_iff_right rfl
  · have habort : ∀ policy, (collected { policy := .abort, parallel, minStops } value).failures = [] →
        collected { policy, parallel, minStops } value =
          collected { policy := .abort, parallel, minStops } value :=
      fun policy hnone => collected_of_no_failures hnone policy
    rw [ofText_eq_ok_iff, ofText_of_ne_abort (by simp), ofText_of_ne_abort (by simp)]
    constructor
    · rintro ⟨hnone, rfl⟩
      exact ⟨hnone rfl, by rw [habort .skip (hnone rfl)], by rw [habort .keepSource (hnone rfl)]⟩
    · rintro ⟨hnone, hskip, -⟩
      rw [habort .skip hnone] at hskip
      exact ⟨fun _ => hnone, (Except.ok.inj hskip).symm⟩

end LegacyGradient.Batch
