/-
  LegacyGradient.Proofs.Traversal

  Going through a list with a step that may refuse an element. If no element is refused, the results
  stand in the order of the elements; otherwise the first refusal is the outcome of the whole.
-/

namespace LegacyGradient

variable {α β ε : Type} {f g : α → Except ε β} {as : List α} {bs : List β} {e : ε}

theorem mapM_congr (h : ∀ a ∈ as, f a = g a) :
    as.mapM f = as.mapM g := by
  induction as with
  | nil => rfl
  | cons a as ih =>
    obtain ⟨ha, has⟩ := List.forall_mem_cons.1 h
    rw [List.mapM_cons, List.mapM_cons, ha, ih has]

theorem mapM_eq_ok (h : as.mapM f = .ok bs) :
    bs.length = as.length ∧ ∀ (i : Nat) (a : α), as[i]? = some a →
      ∃ b, f a = .ok b ∧ bs[i]? = some b := by
  induction as generalizing bs with
  | nil =>
    obtain rfl := Except.ok.inj h
    simp
  | cons a as ih =>
    rw [List.mapM_cons] at h
    cases ha : f a with
    | error e => rw [ha] at h; contradiction
    | ok b =>
      cases has : as.mapM f with
      | error e => rw [ha, has] at h; contradiction
      | ok bs' =>
        rw [ha, has] at h
        obtain rfl := Except.ok.inj h
        obtain ⟨hlength, hall⟩ := ih has
        refine ⟨by simp [hlength], fun i a' ha' => ?_⟩
        cases i with
        | zero =>
          obtain rfl := Option.some.inj ha'
          exact ⟨b, ha, rfl⟩
        | succ i => exact hall i a' ha'

theorem mapM_eq_error_iff :
    as.mapM f = .error e ↔
      ∃ before a after, as = before ++ a :: after ∧ (∀ b ∈ before, ∃ c, f b = .ok c) ∧
        f a = .error e := by
  induction as with
  | nil => simp [pure, Except.pure]
  | cons a as ih =>
    rw [List.mapM_cons]
    cases ha : f a with
    | error e' =>
      simp only [bind, Except.bind, Except.error.injEq]
      constructor
      · rintro rfl
        exact ⟨[], a, as, rfl, by simp, ha⟩
      · rintro ⟨before, a', after, happend, hbefore, ha'⟩
        cases before with
        | nil =>
          obtain ⟨rfl, rfl⟩ := List.cons.inj happend
          rw [ha] at ha'
          exact Except.error.inj ha'
        | cons b before =>
          obtain ⟨rfl, -⟩ := List.cons.inj happend
          obtain ⟨c, hc⟩ := hbefore a (List.mem_cons_self ..)
          rw [ha] at hc
          contradiction
    | ok c =>
      have hrest : ((Except.ok c : Except ε β) >>= fun b => as.mapM f >>= fun bs => pure (b :: bs)) =
          .error e ↔ as.mapM f = .error e := by
        cases as.mapM f <;> simp [bind, Except.bind, pure, Except.pure]
      rw [hrest, ih]
      constructor
      · rintro ⟨before, a', after, rfl, hbefore, ha'⟩
        exact ⟨a :: before, a', after, rfl, List.forall_mem_cons.2 ⟨⟨c, ha⟩, hbefore⟩, ha'⟩
      · rintro ⟨before, a', after, happend, hbefore, ha'⟩
        cases before with
        | nil =>
          obtain ⟨rfl, rfl⟩ := List.cons.inj happend
          rw [ha] at ha'
          contradiction
        | cons b before =>
          obtain ⟨rfl, rfl⟩ := List.cons.inj happend
          exact ⟨before, a', after, rfl, (List.forall_mem_cons.1 hbefore).2, ha'⟩

theorem exists_mapM_eq_ok_iff :
    (∃ bs, as.mapM f = .ok bs) ↔ ∀ a ∈ as, ∃ b, f a = .ok b := by
  constructor
  · rintro ⟨bs, h⟩ a ha
    obtain ⟨i, hi⟩ := List.mem_iff_getElem?.1 ha
    obtain ⟨b, hb, -⟩ := (mapM_eq_ok h).2 i a hi
    exact ⟨b, hb⟩
  · intro h
    cases hmap : as.mapM f with
    | ok bs => exact ⟨bs, rfl⟩
    | error e =>
      obtain ⟨before, a, after, rfl, -, ha⟩ := mapM_eq_error_iff.1 hmap
      obtain ⟨b, hb⟩ := h a (by simp)
      rw [ha] at hb
      contradiction

end LegacyGradient
