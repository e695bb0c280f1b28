/-
  LegacyGradient.Proofs.Batch.Composed

  Values made of two. Where the first value leaves no parenthesis open, the segments of the whole are
  those of the two values, one after the other, and so its batch is that of the first followed by
  that of the second, whose failures move on by the segments of the first (`ofText_comma`).
-/
import LegacyGradient.Proofs.Batch.KeepSource
import LegacyGradient.Proofs.Batch.Policies

namespace LegacyGradient

/-- The failure of the same segment when `n` segments come before those it was counted with. -/
def Failure.shift (n : Nat) (f : Failure) : Failure := { f with index := n + f.index }

namespace Batch

open Text (join commaBlank)

variable {options : Options} {value value' : Text} {ss ss' : List Text}

/-! ## Two batches as one -/

/-- Two lists joined to one. An empty one leaves no comma behind. -/
def joinValues (value value' : Text) : Text :=
  if value = [] then value'
  else if value' = [] then value
  else value ++ commaBlank ++ value'

/-- The batch of `n` segments followed by another one. -/
def followedBy (n : Nat) (batch batch' : Batch) : Batch where
  value := joinValues batch.value batch'.value
  converted := batch.converted + batch'.converted
  failures := batch.failures ++ batch'.failures.map (Failure.shift n)

/-! ## What is collected from two values -/

theorem segments_comma (h : Text.depthAfter 0 value = 0) (value' : Text) :
    segments (value ++ ',' :: value') = segments value ++ segments value' := by
  rw [segments, Text.pieces_append_comma h, List.map_append, List.filter_append]
  rfl

theorem part?_ne_nil {s part : Text} (hs : s ≠ []) (h : part? options s = some part) :
    part ≠ [] := by
  rw [part?] at h
  split at h
  · next legacy hconvert =>
    obtain rfl := Option.some.inj h
    exact (trimmed_of_convert hconvert).2
  · split at h
    · obtain rfl := Option.some.inj h
      exact hs
    · contradiction

theorem join_parts_append (hss : ∀ s ∈ ss, s ≠ []) (hss' : ∀ s ∈ ss', s ≠ []) :
    join commaBlank ((ss ++ ss').filterMap (part? options)) =
      joinValues (join commaBlank (ss.filterMap (part? options)))
        (join commaBlank (ss'.filterMap (part? options))) := by
  have hparts : ∀ {ss : List Text}, (∀ s ∈ ss, s ≠ []) →
      (join commaBlank (ss.filterMap (part? options)) = [] ↔ ss.filterMap (part? options) = []) := by
    intro ss hss
    apply Text.join_eq_nil_iff
    intro part hpart
    obtain ⟨s, hs, hsome⟩ := List.mem_filterMap.1 hpart
    exact part?_ne_nil (hss s hs) hsome
  rw [List.filterMap_append, joinValues]
  split
  · next hnil => rw [(hparts hss).1 hnil, List.nil_append]
  · next hne =>
    split
    · next hnil => rw [(hparts hss').1 hnil, List.append_nil]
    · next hne' => exact Text.join_append (mt (hparts hss).2 hne) (mt (hparts hss').2 hne') commaBlank

theorem failuresFrom_shift (options : Options) (n i : Nat) (ss : List Text) :
    failuresFrom options (n + i) ss = (failuresFrom options i ss).map (Failure.shift n) := by
  induction ss generalizing i with
  | nil => rfl
  | cons s ss ih =>
    cases hconvert : convert options s with
    | ok legacy =>
      rw [failuresFrom_cons_of_ok hconvert, failuresFrom_cons_of_ok hconvert, ← ih (i + 1)]
      rfl
    | error e =>
      rw [failuresFrom_cons_of_error hconvert, failuresFrom_cons_of_error hconvert, List.map_cons,
        ← ih (i + 1)]
      rfl

theorem collected_comma (h : Text.depthAfter 0 value = 0) (options : Options) (value' : Text) :
    collected options (value ++ ',' :: value') =
      (collected options value).followedBy (segments value).length (collected options value') := by
  have hfailures : (collected options (value ++ ',' :: value')).failures =
      (collected options value).failures ++
        (collected options value').failures.map (Failure.shift (segments value).length) := by
    simp only [failures_collected]
    rw [segments_comma h, failuresFrom_append, Nat.zero_add, ← failuresFrom_shift, Nat.add_zero]
  have hvalue : (collected options (value ++ ',' :: value')).value =
      joinValues (collected options value).value (collected options value').value := by
    rw [collected, segments_comma h]
    exact join_parts_append (segmented_segments value).ne_nil (segmented_segments value').ne_nil
  have hconverted : (collected options (value ++ ',' :: value')).converted =
      (collected options value).converted + (collected options value').converted := by
    rw [collected, segments_comma h, List.countP_append]
    rfl
  rw [followedBy, ← hvalue, ← hconverted, ← hfailures]

/-- Two values with a comma between them, the first of which leaves no parenthesis open, convert one
after the other, so that no failure touches a gradient of the other value. To leave failures out or
to keep them always gives a batch; to give up tells the first failure, at its place in the whole. -/
theorem ofText_comma (options : Options) (value value' : Text) (h : Text.depthAfter 0 value = 0) :
    (options.policy ≠ .abort → ∃ batch batch', ofText options value = .ok batch ∧
      ofText options value' = .ok batch' ∧
      ofText options (value ++ ',' :: value') =
        .ok (batch.followedBy (segments value).length batch')) ∧
    (options.policy = .abort → ofText options (value ++ ',' :: value') =
      match ofText options value, ofText options value' with
      | .error f, _ => .error f
      | .ok _, .error f => .error (f.shift (segments value).length)
      | .ok batch, .ok batch' => .ok (batch.followedBy (segments value).length batch')) := by
  constructor
  · intro hpolicy
    refine ⟨_, _, ofText_of_ne_abort hpolicy value, ofText_of_ne_abort hpolicy value', ?_⟩
    rw [ofText_of_ne_abort hpolicy, collected_comma h]
  · intro hpolicy
    have hstop : ∀ {v f}, (collected options v).failures.head? = some f →
        ofText options v = .error f := fun hf => ofText_eq_error_iff.2 ⟨hpolicy, hf⟩
    have hgo : ∀ {v}, (collected options v).failures = [] →
        ofText options v = .ok (collected options v) := fun hnone =>
      ofText_eq_ok_iff.2 ⟨fun _ => hnone, rfl⟩
    have hwhole : (collected options (value ++ ',' :: value')).failures =
        (collected options value).failures ++
          (collected options value').failures.map (Failure.shift (segments value).length) := by
      rw [collected_comma h]
      rfl
    cases hfirst : (collected options value).failures with
    | cons f fs =>
      rw [hstop (v := value) (by rw [hfirst]; rfl), hstop (by rw [hwhole, hfirst]; rfl)]
    | nil =>
      rw [hgo hfirst]
      cases hsecond : (collected options value').failures with
      | cons f fs =>
        rw [hstop (v := value') (by rw [hsecond]; rfl),
          hstop (by rw [hwhole, hfirst, hsecond]; rfl)]
      | nil =>
        rw [hgo hsecond, hgo (by rw [hwhole, hfirst, hsecond]; rfl), collected_comma h]

/-- A parenthesis that closes nothing leaves the depth at zero. The empty segment after the comma has no
place, so the failure of the second value is the third of the whole. -/
theorem ofText_comma_skip :
    Text.depthAfter 0 "a), linear-gradient(lime, red)".toList = 0 ∧
      ofText { policy := .skip } ("a), linear-gradient(lime, red)".toList ++ ',' :: ",f(b, c".toList) =
        .ok {
          value := "-webkit-gradient(linear, 0 0, 0 100%, from(lime), to(red))".toList
          converted := 1
          failures := [⟨0, "a)".toList, .notRecognized "a)".toList⟩,
            ⟨2, "f(b, c".toList, .notRecognized "f(b, c".toList⟩] } := by
  have hdepth : Text.depthAfter 0 "a), linear-gradient(lime, red)".toList = 0 := by
    rw [String.toList_ofList]
    decide
  have hfirst : ofText { policy := .skip } "a), linear-gradient(lime, red)".toList = .ok {
      value := "-webkit-gradient(linear, 0 0, 0 100%, from(lime), to(red))".toList
      converted := 1
      failures := [⟨0, "a)".toList, .notRecognized "a)".toList⟩] } := by
    rw [String.toList_ofList, String.toList_ofList, String.toList_ofList]
    exact Placement.eq_ok_of_toOption (by decide +kernel)
  have hsecond : ofText { policy := .skip } ",f(b, c".toList = .ok {
      value := []
      converted := 0
      failures := [⟨0, "f(b, c".toList, .notRecognized "f(b, c".toList⟩] } := by
    rw [String.toList_ofList, String.toList_ofList]
    exact Placement.eq_ok_of_toOption (by decide +kernel)
  have hlength : (segments "a), linear-gradient(lime, red)".toList).length = 2 := by
    rw [String.toList_ofList]
    decide +kernel
  refine ⟨hdepth, ?_⟩
  obtain ⟨batch, batch', hbatch, hbatch', hwhole⟩ :=
    (ofText_comma { policy := .skip } _ ",f(b, c".toList hdepth).1 (by decide)
  obtain rfl := Except.ok.inj (hfirst.symm.trans hbatch)
  obtain rfl := Except.ok.inj (hsecond.symm.trans hbatch')
  rw [hwhole, hlength]
  rfl

end Batch

end LegacyGradient
