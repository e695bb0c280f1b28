/-
  LegacyGradient.Proofs.Batch.Collected

  What is collected from the segments of a value. The place of a segment counts for the failures
  only; the new value and the number of conversions can be read off the texts of the segments. A
  batch is what was collected, unless it was stopped (`ofText_eq_ok_iff`).
-/
import LegacyGradient.Batch

namespace LegacyGradient.Batch

variable {options : Options} {value : Text} {batch : Batch} {ss legacies : List Text}

/-- What a segment adds to the new value. -/
def part? (options : Options) (s : Text) : Option Text :=
  match convert options s with
  | .ok legacy => some legacy
  | .error _ => if options.policy = .keepSource then some s else none

/-- What is collected from the segments of a value. -/
def collected (options : Options) (value : Text) : Batch where
  value := Text.join Text.commaBlank ((segments value).filterMap (part? options))
  converted := (segments value).countP fun s => (convert options s).isOk
  failures := (outcomes options value).filterMap Outcome.failure?

/-! ## Outcomes without their places -/

theorem filterMap_outcomes_part? (options : Options) (value : Text) :
    (outcomes options value).filterMap (Outcome.part? options.policy) =
      (segments value).filterMap (part? options) := by
  rw [outcomes, List.filterMap_map]
  show (segments value).zipIdx.filterMap (part? options ∘ Prod.fst) = _
  rw [← List.filterMap_map, List.zipIdx_map_fst]

theorem countP_outcomes (options : Options) (value : Text) :
    (outcomes options value).countP (fun o => o.failure?.isNone) =
      (segments value).countP fun s => (convert options s).isOk := by
  have hresult : ∀ o : Outcome, o.failure?.isNone = o.result.isOk := by
    intro o
    rw [Outcome.failure?]
    cases o.result <;> rfl
  simp only [hresult]
  rw [outcomes, List.countP_map]
  show (segments value).zipIdx.countP ((fun s => (convert options s).isOk) ∘ Prod.fst) = _
  rw [← List.countP_map, List.zipIdx_map_fst]

/-! ## Failures -/

/-- The failures of segments whose places are counted from `i` on. -/
def failuresFrom (options : Options) (i : Nat) (ss : List Text) : List Failure :=
  ((ss.zipIdx i).map fun (s, i) => (⟨i, s, convert options s⟩ : Outcome)).filterMap
    Outcome.failure?

theorem failures_collected (options : Options) (value : Text) :
    (collected options value).failures = failuresFrom options 0 (segments value) := rfl

theorem failuresFrom_cons_of_ok {s legacy : Text} (h : convert options s = .ok legacy) (i : Nat)
    (ss : List Text) : failuresFrom options i (s :: ss) = failuresFrom options (i + 1) ss := by
  have hnone : Outcome.failure? ⟨i, s, convert options s⟩ = none := by
    rw [h]
    rfl
  rw [failuresFrom, List.zipIdx_cons, List.map_cons, List.filterMap_cons_none hnone]
  rfl

theorem failuresFrom_cons_of_error {s : Text} {e : ConversionError}
    (h : convert options s = .error e) (i : Nat) (ss : List Text) :
    failuresFrom options i (s :: ss) = ⟨i, s, e⟩ :: failuresFrom options (i + 1) ss := by
  have hsome : Outcome.failure? ⟨i, s, convert options s⟩ = some ⟨i, s, e⟩ := by
    rw [h]
    rfl
  rw [failuresFrom, List.zipIdx_cons, List.map_cons, List.filterMap_cons_some hsome]
  rfl

/-- The failures tell of each segment that does not convert, and of no other. -/
theorem mem_failuresFrom_iff {f : Failure} {i : Nat} :
    f ∈ failuresFrom options i ss ↔
      ∃ k, f.index = i + k ∧ ss[k]? = some f.segment ∧
        convert options f.segment = .error f.error := by
  have hfailure : ∀ o : Outcome,
      o.failure? = some f ↔ o.index = f.index ∧ o.segment = f.segment ∧ o.result = .error f.error := by
    intro o
    obtain ⟨index, segment, error⟩ := f
    rw [Outcome.failure?]
    cases o.result <;> simp
  simp only [failuresFrom, List.mem_filterMap, List.mem_map, Prod.exists, hfailure]
  constructor
  · rintro ⟨-, ⟨s, j, hs, rfl⟩, hindex, hsegment, hresult⟩
    obtain ⟨hle, hget⟩ := List.mk_mem_zipIdx_iff_le_and_getElem?_sub.1 hs
    obtain rfl : s = f.segment := hsegment
    obtain rfl : j = f.index := hindex
    exact ⟨f.index - i, by omega, hget, hresult⟩
  · rintro ⟨k, hindex, hget, hresult⟩
    refine ⟨_, ⟨f.segment, f.index, ?_, rfl⟩, rfl, rfl, hresult⟩
    rw [List.mk_mem_zipIdx_iff_le_and_getElem?_sub]
    refine ⟨by omega, ?_⟩
    rwa [hindex, Nat.add_sub_cancel_left]

/-- The failures come in the order of their places. -/
theorem pairwise_failuresFrom (options : Options) (i : Nat) (ss : List Text) :
    (failuresFrom options i ss).Pairwise (·.index < ·.index) := by
  induction ss generalizing i with
  | nil => exact .nil
  | cons s ss ih =>
    cases hconvert : convert options s with
    | ok legacy =>
      rw [failuresFrom_cons_of_ok hconvert]
      exact ih (i + 1)
    | error e =>
      rw [failuresFrom_cons_of_error hconvert]
      refine List.pairwise_cons.2 ⟨fun f hf => ?_, ih (i + 1)⟩
      obtain ⟨k, hindex, -, -⟩ := mem_failuresFrom_iff.1 hf
      show i < f.index
      omega

/-- Every segment is converted or fails. -/
theorem countP_add_length_failuresFrom (options : Options) (i : Nat) (ss : List Text) :
    (ss.countP fun s => (convert options s).isOk) + (failuresFrom options i ss).length =
      ss.length := by
  induction ss generalizing i with
  | nil => rfl
  | cons s ss ih =>
    cases hconvert : convert options s with
    | ok legacy =>
      have hok : (convert options s).isOk := by
        rw [hconvert]
        rfl
      rw [failuresFrom_cons_of_ok hconvert, List.countP_cons, if_pos hok, List.length_cons,
        ← ih (i + 1)]
      omega
    | error e =>
      have hnot : ¬ (convert options s).isOk := by
        rw [hconvert]
        exact Bool.false_ne_true
      rw [failuresFrom_cons_of_error hconvert, List.countP_cons, if_neg hnot,
        List.length_cons, List.length_cons, ← ih (i + 1)]
      omega

theorem failuresFrom_append (options : Options) (i : Nat) (ss ss' : List Text) :
    failuresFrom options i (ss ++ ss') =
      failuresFrom options i ss ++ failuresFrom options (i + ss.length) ss' := by
  rw [failuresFrom, List.zipIdx_append, List.map_append, List.filterMap_append]
  rfl

/-! ## Values without failures -/

theorem filterMap_part?_of_converted (h : ss.map (convert options) = legacies.map .ok) :
    ss.filterMap (part? options) = legacies := by
  induction ss generalizing legacies with
  | nil => simpa [eq_comm] using h
  | cons s ss ih =>
    cases legacies with
    | nil => contradiction
    | cons legacy legacies =>
      obtain ⟨hs, hss⟩ := List.cons.inj h
      rw [List.filterMap_cons_some (b := legacy) (by rw [part?, hs]), ih hss]

theorem collected_of_converted (h : (segments value).map (convert options) = legacies.map .ok) :
    collected options value =
      { value := Text.join Text.commaBlank legacies
        converted := (segments value).length
        failures := [] } := by
  have hok : ∀ s ∈ segments value, ∃ legacy, convert options s = .ok legacy := by
    intro s hs
    have : convert options s ∈ legacies.map .ok := h ▸ List.mem_map_of_mem hs
    obtain ⟨legacy, -, hlegacy⟩ := List.mem_map.1 this
    exact ⟨legacy, hlegacy.symm⟩
  have hfailures : failuresFrom options 0 (segments value) = [] := by
    apply List.eq_nil_iff_forall_not_mem.2
    intro f hf
    obtain ⟨k, -, hget, herror⟩ := mem_failuresFrom_iff.1 hf
    obtain ⟨legacy, hlegacy⟩ := hok f.segment (List.mem_of_getElem? hget)
    rw [hlegacy] at herror
    contradiction
  have hconverted := countP_add_length_failuresFrom options 0 (segments value)
  rw [hfailures, List.length_nil, Nat.add_zero] at hconverted
  rw [collected, filterMap_part?_of_converted h, hconverted]
  show Batch.mk _ _ (failuresFrom options 0 (segments value)) = _
  rw [hfailures]

/-! ## Values without conversions -/

theorem failuresFrom_of_refused (h : ∀ s ∈ ss, ∃ e, convert options s = .error e) (i : Nat) :
    (failuresFrom options i ss).map (fun f => (f.segment, f.index)) = ss.zipIdx i := by
  induction ss generalizing i with
  | nil => rfl
  | cons s ss ih =>
    obtain ⟨⟨e, he⟩, hss⟩ := List.forall_mem_cons.1 h
    rw [failuresFrom_cons_of_error he, List.map_cons, List.zipIdx_cons, ih hss]

/-- Where no segment converts, there is one failure for each segment, in order. -/
theorem collected_of_refused (h : ∀ s ∈ segments value, ∃ e, convert options s = .error e) :
    (collected options value).converted = 0 ∧
      (collected options value).failures.map (fun f => (f.segment, f.index)) =
        (segments value).zipIdx := by
  constructor
  · apply List.countP_eq_zero.2
    intro s hs
    obtain ⟨e, he⟩ := h s hs
    rw [he]
    exact Bool.false_ne_true
  · rw [failures_collected]
    exact failuresFrom_of_refused h 0

/-! ## Segments that stay -/

/-- What stands for a segment in the new value: its older form, or itself where it has none. -/
def kept (options : Options) (s : Text) : Text :=
  match convert options s with
  | .ok legacy => legacy
  | .error _ => s

theorem kept_of_ok {s legacy : Text} (h : convert options s = .ok legacy) :
    kept options s = legacy := by
  rw [kept, h]

theorem kept_of_error {s : Text} {e : ConversionError} (h : convert options s = .error e) :
    kept options s = s := by
  rw [kept, h]

theorem filterMap_part?_keepSource (h : options.policy = .keepSource) (ss : List Text) :
    ss.filterMap (part? options) = ss.map (kept options) := by
  have hpart : part? options = some ∘ kept options := by
    funext s
    rw [part?, Function.comp_apply, kept, if_pos h]
    cases convert options s <;> rfl
  rw [hpart, ← List.filterMap_map, List.filterMap_some]

/-! ## Batches -/

/-- The outcome is what was collected, or with the policy to give up the first failure. -/
theorem ofText_eq (options : Options) (value : Text) :
    ofText options value =
      match options.policy, (collected options value).failures with
      | .abort, f :: _ => .error f
      | _, _ => .ok (collected options value) := by
  have hcollected : collected options value =
      { value := Text.join Text.commaBlank
          ((outcomes options value).filterMap (Outcome.part? options.policy))
        converted := (outcomes options value).countP fun o => o.failure?.isNone
        failures := (outcomes options value).filterMap Outcome.failure? } := by
    rw [collected, filterMap_outcomes_part?, countP_outcomes]
  rw [hcollected, ofText]
  cases options.policy <;> cases (outcomes options value).filterMap Outcome.failure? <;> rfl

theorem ofText_eq_ok_iff :
    ofText options value = .ok batch ↔
      (options.policy = .abort → (collected options value).failures = []) ∧
        batch = collected options value := by
  rw [ofText_eq]
  cases options.policy <;> cases (collected options value).failures <;> simp [eq_comm]

theorem ofText_eq_error_iff {f : Failure} :
    ofText options value = .error f ↔
      options.policy = .abort ∧ (collected options value).failures.head? = some f := by
  rw [ofText_eq]
  cases options.policy <;> cases (collected options value).failures <;> simp

end LegacyGradient.Batch
