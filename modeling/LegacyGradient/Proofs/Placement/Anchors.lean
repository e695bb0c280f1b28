/-
  LegacyGradient.Proofs.Placement.Anchors

  Where the anchors end up. An anchor that nothing moves lies at the largest offset that it or an
  anchor in front of it has by itself. Only the rounding of a stop that waits can move it further:
  a provisional offset that was rounded beyond both anchors around it lifts the second one.
-/
import LegacyGradient.Proofs.Placement.Order

namespace LegacyGradient.Placement

variable {start next previous x y : Binary64} {xs : List Binary64} {distance j waiting : Nat}
  {own : List (Option Binary64)} {stops : List Stop} {placed : List PlacedStop} {f t : Nat}

/-! ## The largest offset of the anchors -/

/-- The number is, in the order, the largest offset of an anchor up to the stop at an index. -/
def IsLargestOwn (stops : List Stop) (i : Nat) (x : Binary64) : Prop :=
  (∃ k ≤ i, ∃ y, IsOwn stops k y ∧ x ≤ y) ∧ ∀ k ≤ i, ∀ y, IsOwn stops k y → y ≤ x

/-- Each anchor is placed at the largest offset of the anchors up to it. -/
def KeepsAnchors (stops : List Stop) (placed : List PlacedStop) : Prop :=
  ∀ t q, IsOwn stops t q → ∃ x, offsetAt placed t = some x ∧ IsLargestOwn stops t x

/-- The anchor at `t` is the next one after the anchor at `f`. -/
def NextAnchor (stops : List Stop) (f t : Nat) : Prop :=
  f < t ∧ (∃ x, IsOwn stops f x) ∧ (∃ x, IsOwn stops t x) ∧
    ∀ k, f < k → k < t → ∀ x, ¬ IsOwn stops k x

theorem NextAnchor.le_or_eq {k : Nat} (h : NextAnchor stops f t) (hk : IsOwn stops k x)
    (hkt : k ≤ t) : k ≤ f ∨ k = t := by
  obtain ⟨-, -, -, hbetween⟩ := h
  rcases Nat.lt_or_ge f k with hfk | hkf
  · rcases Nat.lt_or_eq_of_le hkt with hlt | heq
    · exact absurd hk (hbetween k hfk hlt x)
    · exact .inr heq
  · exact .inl hkf

theorem isLargestOwn_zero (h : IsOwn stops 0 x) : IsLargestOwn stops 0 x := by
  refine ⟨⟨0, Nat.le_refl 0, x, h, Binary64.le_self h.ne_nan⟩, fun k hk y hy => ?_⟩
  obtain rfl := Nat.le_zero.1 hk
  rw [hy.unique h]
  exact Binary64.le_self h.ne_nan

/-- Between two anchors the largest offset is that of the first one or that of the second one. -/
theorem isLargestOwn_next_iff (h : NextAnchor stops f t) (hstart : IsLargestOwn stops f start)
    (hnext : IsOwn stops t next) (hle : start ≤ x ∧ next ≤ x) :
    IsLargestOwn stops t x ↔ x ≤ start ∨ x ≤ next := by
  obtain ⟨⟨k, hk, y, hy, hstart_le⟩, hlargest⟩ := hstart
  constructor
  · rintro ⟨⟨k, hk, y, hy, hxy⟩, -⟩
    rcases h.le_or_eq hy hk with hkf | rfl
    · exact .inl (Binary64.le_trans hxy (hlargest k hkf y hy))
    · rw [hnext.unique hy]
      exact .inr hxy
  · intro hx
    refine ⟨?_, fun k hk y hy => ?_⟩
    · rcases hx with hx | hx
      · exact ⟨k, Nat.le_trans hk (Nat.le_of_lt h.1), y, hy, Binary64.le_trans hx hstart_le⟩
      · exact ⟨t, Nat.le_refl t, next, hnext, hx⟩
    · rcases h.le_or_eq hy hk with hkf | rfl
      · exact Binary64.le_trans (hlargest k hkf y hy) hle.1
      · rw [hy.unique hnext]
        exact hle.2

/-! ## From one anchor to the next -/

theorem exists_last_before {p : Nat → Prop} {n : Nat} (hzero : p 0) (hn : 0 < n) :
    ∃ m, m < n ∧ p m ∧ ∀ k, m < k → k < n → ¬ p k := by
  induction n with
  | zero => contradiction
  | succ n ih =>
    by_cases hp : p n
    · exact ⟨n, Nat.lt_succ_self n, hp, fun k hk hkn => absurd hkn (by omega)⟩
    · have hpos : 0 < n := Nat.pos_of_ne_zero fun hn => hp (hn ▸ hzero)
      obtain ⟨m, hm, hpm, hbetween⟩ := ih hpos
      refine ⟨m, by omega, hpm, fun k hk hkn => ?_⟩
      rcases Nat.lt_succ_iff_lt_or_eq.1 hkn with hkn | rfl
      · exact hbetween k hk hkn
      · exact hp

theorem exists_isOwn_zero (hown : ownOffsets stops = .ok own) (ht : IsOwn stops t x) :
    ∃ y, IsOwn stops 0 y := by
  have hlt := (List.getElem?_eq_some_iff.1 ((isOwn_iff hown).1 ht)).1
  have hfirst := getElem?_own_ne_none hown (.inl rfl)
  rw [List.getElem?_eq_getElem (Nat.zero_lt_of_lt hlt)] at hfirst
  obtain ⟨y, hy⟩ := Option.ne_none_iff_exists'.1 fun hnone => hfirst (congrArg some hnone)
  exact ⟨y, (isOwn_iff hown).2 (by rw [List.getElem?_eq_getElem (Nat.zero_lt_of_lt hlt), hy])⟩

/-- Before every anchor but the first there is a previous one. -/
theorem exists_nextAnchor (hown : ownOffsets stops = .ok own) (ht : IsOwn stops t x)
    (hpos : 0 < t) : ∃ f, NextAnchor stops f t := by
  obtain ⟨f, hft, hf, hbetween⟩ :=
    exists_last_before (p := fun k => ∃ y, IsOwn stops k y) (exists_isOwn_zero hown ht) hpos
  exact ⟨f, hft, hf, ⟨x, ht⟩, fun k hk hkt y hy => hbetween k hk hkt ⟨y, hy⟩⟩

/-- The own offsets from one anchor on: the stops that wait have none. -/
theorem drop_of_nextAnchor (hown : ownOffsets stops = .ok own) (h : NextAnchor stops f t)
    (hnext : IsOwn stops t next) :
    own.drop (f + 1) = List.replicate (t - f - 1) none ++ some next :: own.drop (t + 1) := by
  obtain ⟨hft, -, -, hbetween⟩ := h
  rw [isOwn_iff hown] at hnext
  have hlt := (List.getElem?_eq_some_iff.1 hnext).1
  refine List.ext_getElem? fun k => ?_
  rw [List.getElem?_drop]
  -- before, at and after the next anchor
  rcases Nat.lt_trichotomy k (t - f - 1) with hk | rfl | hk
  · rw [List.getElem?_append_left (by simpa using hk), List.getElem?_replicate, if_pos hk]
    cases hwaits : own[f + 1 + k]? with
    | none => exact absurd (List.getElem?_eq_none_iff.1 hwaits) (by omega)
    | some o =>
      cases o with
      | none => rfl
      | some y => exact absurd ((isOwn_iff hown).2 hwaits) (hbetween _ (by omega) (by omega) y)
  · rw [List.getElem?_append_right (by simp), List.length_replicate, Nat.sub_self,
      List.getElem?_cons_zero, ← hnext]
    congr 1
    omega
  · obtain ⟨n, rfl⟩ : ∃ n, k = t - f - 1 + (n + 1) := ⟨k - (t - f), by omega⟩
    rw [List.getElem?_append_right (by simp), List.length_replicate, Nat.add_sub_cancel_left,
      List.getElem?_cons_succ, List.getElem?_drop]
    congr 1
    omega

/-- After an anchor come the offsets of the run that leads to the next one. -/
theorem exists_settled_run (hown : ownOffsets stops = .ok own) (h : NextAnchor stops f t)
    (hstart : (settled own)[f]? = some start) (hnext : IsOwn stops t next) :
    ∃ done rest, done.length = f ∧
      settled own = done ++ start :: (run start next (t - f - 1) ++ rest) := by
  obtain ⟨hft, ⟨x, hx⟩, -, -⟩ := id h
  obtain ⟨hlt, hf⟩ := List.getElem?_eq_some_iff.1 ((isOwn_iff hown).1 hx)
  have hcut : own = own.take f ++ some x ::
      (List.replicate (t - f - 1) none ++ some next :: own.drop (t + 1)) := by
    rw [← drop_of_nextAnchor hown h hnext, ← hf, List.getElem_cons_drop, List.take_append_drop]
  have hfirst : (own.take f).head? ≠ some none := by
    rw [List.head?_take]
    split
    · exact fun hnone => by contradiction
    · exact head?_own_ne_none hown
  -- what stands before the next anchor is settled up to `start`
  obtain ⟨done, anchor, hdone, hsettled⟩ := exists_settled_append hfirst x
  rw [List.length_take, Nat.min_eq_left (Nat.le_of_lt hlt)] at hdone
  have hall := hsettled (List.replicate (t - f - 1) none ++ some next :: own.drop (t + 1))
  rw [← hcut, settledFrom_replicate, settledFrom, Nat.zero_add] at hall
  obtain rfl : anchor = start := by
    rw [hall, List.getElem?_append_right (by omega), hdone, Nat.sub_self] at hstart
    exact Option.some.inj hstart
  exact ⟨done, _, hdone, hall⟩

/-- The offset of an anchor comes from that of the anchor before it. -/
theorem settled_next (hown : ownOffsets stops = .ok own) (h : NextAnchor stops f t)
    (hstart : (settled own)[f]? = some start) (hnext : IsOwn stops t next) :
    (settled own)[t]? = some (anchorAfter start next (t - f - 1)) := by
  obtain ⟨done, rest, rfl, hsettled⟩ := exists_settled_run hown h hstart hnext
  have hft := h.1
  have ht : t - done.length = t - done.length - 1 + 1 := by omega
  rw [hsettled, List.getElem?_append_right (by omega), ht, List.getElem?_cons_succ,
    List.getElem?_append_left (by simp), run, List.getElem?_append_right (by simp)]
  simp

theorem settled_zero {first : Binary64} (h : own[0]? = some (some first)) :
    (settled own)[0]? = some first := by
  cases own with
  | nil => contradiction
  | cons o own =>
    obtain rfl := Option.some.inj h
    rfl

/-! ## Anchors that are lifted -/

theorem le_foldl_raise (hprevious : previous ≠ .nan) (hxs : ∀ x ∈ xs, x ≠ .nan) :
    ∀ x ∈ xs, x ≤ xs.foldl raise previous := by
  induction xs generalizing previous with
  | nil => simp
  | cons x xs ih =>
    obtain ⟨hx, hxs⟩ := List.forall_mem_cons.1 hxs
    have hle := (le_raise hprevious hx).2
    have hraise := (Binary64.ne_nan_of_le hle).2
    rw [List.foldl_cons]
    refine List.forall_mem_cons.2 ⟨?_, ih hraise hxs⟩
    exact Binary64.le_trans hle ((pairwise_raised hraise hxs).2 _ (List.mem_cons_self ..))

theorem foldl_raise_eq_or_mem (previous : Binary64) (xs : List Binary64) :
    xs.foldl raise previous = previous ∨ xs.foldl raise previous ∈ xs := by
  induction xs generalizing previous with
  | nil => exact .inl rfl
  | cons x xs ih =>
    rw [List.foldl_cons]
    rcases ih (raise previous x) with hlast | hlast
    · rw [hlast, raise]
      split
      · exact .inl rfl
      · exact .inr (List.mem_cons_self ..)
    · exact .inr (List.mem_cons_of_mem _ hlast)

/-- The second anchor goes beyond both only if a stop between them was rounded beyond both. -/
theorem anchorAfter_le_iff (hstart : start ≠ .nan) (hnext : next ≠ .nan)
    (hwaiting : waiting + 1 < 2 ^ 64) :
    (anchorAfter start next waiting ≤ start ∨ anchorAfter start next waiting ≤ next) ↔
      ∀ x ∈ provisionals start next waiting, ¬ (start < x ∧ next < x) := by
  constructor
  · rintro hle x hx ⟨hstart_lt, hnext_lt⟩
    -- raising passes every provisional offset on to the second anchor
    have hx_le : x ≤ anchorAfter start next waiting := by
      rcases lowest_or_ne_nan start next hwaiting with ⟨-, hxs⟩ | hxs
      · exact absurd hstart_lt (hxs x hx).not_lt
      · have hlast := le_foldl_raise hstart hxs x hx
        exact Binary64.le_trans hlast (le_raise (Binary64.ne_nan_of_le hlast).2 hnext).1
    rcases hle with hle | hle
    · exact Binary64.not_lt_of_le (Binary64.le_trans hx_le hle) hstart_lt
    · exact Binary64.not_lt_of_le (Binary64.le_trans hx_le hle) hnext_lt
  · intro hall
    rw [anchorAfter, raise]
    split
    · next hlt =>
      -- what lifts the anchor is the first anchor itself or a provisional offset
      left
      rcases foldl_raise_eq_or_mem start (provisionals start next waiting) with hlast | hlast
      · rw [hlast]
        exact Binary64.le_self hstart
      · have hnumber := (Binary64.ne_nan_of_le (Binary64.le_of_lt hlt)).2
        exact Binary64.le_of_not_lt hstart hnumber fun h => hall _ hlast ⟨h, hlt⟩
    · exact .inr (Binary64.le_self hnext)

/-- The next anchor lies at the largest offset of all so far unless a stop that waits for it is
rounded beyond that offset. -/
theorem isLargestOwn_anchorAfter_iff (hlength : stops.length < 2 ^ 64) (h : NextAnchor stops f t)
    (hstart : IsLargestOwn stops f start) (hnext : IsOwn stops t next) :
    IsLargestOwn stops t (anchorAfter start next (t - f - 1)) ↔
      ∀ j, 0 < j → j < t - f → ¬ (start < provisional start next (t - f) j ∧
        next < provisional start next (t - f) j) := by
  obtain ⟨⟨k, -, y, -, hy⟩, -⟩ := id hstart
  have hlt := hnext.lt_length
  have hft := h.1
  have hwaiting : t - f - 1 + 1 < 2 ^ 64 := by omega
  have hdistance : t - f - 1 + 1 = t - f := by omega
  have hstart_ne := (Binary64.ne_nan_of_le hy).1
  have hnext_ne := hnext.ne_nan
  rw [isLargestOwn_next_iff h hstart hnext (le_anchorAfter hstart_ne hnext_ne hwaiting),
    anchorAfter_le_iff hstart_ne hnext_ne hwaiting]
  constructor
  · intro hall j hpos hj
    refine hall _ (mem_provisionals.2 ⟨j, hpos, by omega, ?_⟩)
    rw [hdistance]
  · intro hall x hx
    obtain ⟨j, hpos, hj, rfl⟩ := mem_provisionals.1 hx
    rw [hdistance] at hj ⊢
    exact hall j hpos hj

/-! ## The two zeros -/

theorem stepTo_zero (hpos : 0 < distance) (hdistance : distance < 2 ^ 64) (s s' : Bool) :
    stepTo (.ranked s .zero) next distance = stepTo (.ranked s' .zero) next distance := by
  rw [stepTo, stepTo]
  rcases Binary64.sub_zero_cases next with ⟨y, hy⟩ | hzero
  · rw [hy, hy]
  · have hstep : ∀ s, ((next - .ranked s .zero) / .ofNat distance).atLeastZero = 0 := by
      intro s
      obtain ⟨s₁, hs₁⟩ := hzero s
      obtain ⟨s₂, hs₂⟩ := Binary64.zero_div (s := s₁) (Binary64.ofNat_isFactor hpos hdistance)
      rw [hs₁, hs₂, Binary64.atLeastZero_zero]
    rw [hstep, hstep]

/-- Anchors that are equal in the order have the same provisional offsets after them. -/
theorem provisional_congr (h : x = y ∨ x.IsZero ∧ y.IsZero) (hpos : 0 < j) (hj : j < distance)
    (hdistance : distance < 2 ^ 64) :
    provisional x next distance j = provisional y next distance j := by
  rcases h with rfl | ⟨hx, hy⟩
  · rfl
  · obtain ⟨s, rfl⟩ : ∃ s, x = .ranked s .zero := by
      rcases hx with rfl | rfl <;> exact ⟨_, rfl⟩
    obtain ⟨s', rfl⟩ : ∃ s', y = .ranked s' .zero := by
      rcases hy with rfl | rfl <;> exact ⟨_, rfl⟩
    obtain ⟨r, hr⟩ := exists_steps_eq (.ranked s' .zero) next distance hpos
      (Nat.lt_trans hj hdistance)
    rw [provisional, provisional, stepTo_zero (Nat.zero_lt_of_lt hj) hdistance s s', hr,
      Binary64.zero_add s s']

theorem IsLargestOwn.le (hx : IsLargestOwn stops t x) (hy : IsLargestOwn stops t y) : x ≤ y := by
  obtain ⟨⟨k, hk, z, hz, hxz⟩, -⟩ := hx
  exact Binary64.le_trans hxz (hy.2 k hk z hz)

theorem IsLargestOwn.eq_or_isZero (hx : IsLargestOwn stops t x) (hy : IsLargestOwn stops t y) :
    x = y ∨ x.IsZero ∧ y.IsZero :=
  Binary64.eq_or_isZero_of_le_of_le (hx.le hy) (hy.le hx)

/-! ## All anchors -/

/-- The anchors of a list that fits in memory are placed at the largest offset of the anchors up
to them, exactly if no stop between two anchors is rounded beyond the larger one of them. -/
theorem keepsAnchors_iff (hlength : stops.length < 2 ^ 64) (h : place stops = .ok placed) :
    KeepsAnchors stops placed ↔
      ∀ f t start next, NextAnchor stops f t → IsLargestOwn stops f start → IsOwn stops t next →
        ∀ j, 0 < j → j < t - f → ¬ (start < provisional start next (t - f) j ∧
          next < provisional start next (t - f) j) := by
  obtain ⟨own, hown, hplaced, hsettled, hoffset⟩ := exists_settled_of_place h
  constructor
  · rintro hkeeps f t start next hft hstart hnext j hpos hj ⟨hstart_lt, hnext_lt⟩
    obtain ⟨-, ⟨y, hy⟩, -, -⟩ := id hft
    obtain ⟨x, hx, hlargest⟩ := hkeeps f y hy
    obtain ⟨x', hx', hlargest'⟩ := hkeeps t next hnext
    rw [hoffset] at hx hx'
    rw [settled_next hown hft hx hnext] at hx'
    obtain rfl := Option.some.inj hx'
    have ht := hnext.lt_length
    -- the anchor may have been placed at the other zero
    rw [provisional_congr (hstart.eq_or_isZero hlargest) hpos hj (by omega)]
      at hstart_lt hnext_lt
    exact (isLargestOwn_anchorAfter_iff hlength hft hlargest hnext).1 hlargest' j hpos hj
      ⟨Binary64.lt_of_le_of_lt (hlargest.le hstart) hstart_lt, hnext_lt⟩
  · intro hround t
    -- the anchor in front is placed already
    induction t using Nat.strongRecOn with
    | ind t ih =>
      intro next hnext
      rcases Nat.eq_zero_or_pos t with rfl | hpos
      · refine ⟨next, ?_, isLargestOwn_zero hnext⟩
        rw [hoffset]
        exact settled_zero ((isOwn_iff hown).1 hnext)
      · obtain ⟨f, hft⟩ := exists_nextAnchor hown hnext hpos
        obtain ⟨y, hy⟩ := hft.2.1
        obtain ⟨start, hstart, hlargest⟩ := ih f hft.1 y hy
        rw [hoffset] at hstart
        refine ⟨_, (hoffset t).trans (settled_next hown hft hstart hnext), ?_⟩
        exact (isLargestOwn_anchorAfter_iff hlength hft hlargest hnext).2
          (hround f t start next hft hlargest hnext)

/-- A stop that waits before an anchor that goes back is not rounded away from the first one. -/
theorem keepsAnchors_three :
    ∃ placed, place [⟨"red".toList, some "60%".toList⟩, ⟨"lime".toList, none⟩,
        ⟨"blue".toList, some "20%".toList⟩] = .ok placed ∧
      KeepsAnchors [⟨"red".toList, some "60%".toList⟩, ⟨"lime".toList, none⟩,
        ⟨"blue".toList, some "20%".toList⟩] placed := by
  let red : Stop := ⟨"red".toList, some "60%".toList⟩
  let lime : Stop := ⟨"lime".toList, none⟩
  let blue : Stop := ⟨"blue".toList, some "20%".toList⟩
  have h : place [red, lime, blue] = .ok
      [⟨red, some (60 / 100)⟩, ⟨lime, some (60 / 100)⟩, ⟨blue, some (60 / 100)⟩] :=
    eq_ok_of_toOption (by decide +kernel)
  have hown : ownOffsets [red, lime, blue] = .ok [some (60 / 100), none, some (20 / 100)] :=
    eq_ok_of_toOption (by decide +kernel)
  refine ⟨_, h, (keepsAnchors_iff (by decide) h).2 ?_⟩
  intro f t start next hft hstart hnext j hpos hj
  have hlime : ∀ x, ¬ IsOwn [red, lime, blue] 1 x := by
    intro x hx
    have hwaits : some none = some (some x) := (isOwn_iff hown).1 hx
    simp at hwaits
  have ht : t < 3 := hnext.lt_length
  have hlt := hft.1
  -- the only anchors that follow each other are the first and the last stop
  obtain rfl : t = 2 := by
    rcases (show t = 1 ∨ t = 2 by omega) with rfl | rfl
    · exact absurd hnext (hlime next)
    · rfl
  obtain rfl : f = 0 := by
    rcases (show f = 0 ∨ f = 1 by omega) with rfl | rfl
    · rfl
    · obtain ⟨x, hx⟩ := hft.2.1
      exact absurd hx (hlime x)
  obtain rfl : j = 1 := by omega
  have hblue : next = 20 / 100 := hnext.unique ((isOwn_iff hown).2 rfl)
  have hred : IsLargestOwn [red, lime, blue] 0 (60 / 100) :=
    isLargestOwn_zero ((isOwn_iff hown).2 rfl)
  rcases hstart.eq_or_isZero hred with heq | ⟨-, hzero⟩
  · rw [heq, hblue]
    decide +kernel
  · exact absurd hzero (by decide +kernel)

/-- The stop between two anchors at six thousandths is rounded to one hundredth, and the second
anchor is lifted there, although it was not written before the first one. -/
theorem anchor_lifted :
    ∃ placed, place [⟨"red".toList, some "0.6%".toList⟩, ⟨"green".toList, none⟩,
        ⟨"blue".toList, some "0.6%".toList⟩] = .ok placed ∧
      ¬ KeepsAnchors [⟨"red".toList, some "0.6%".toList⟩, ⟨"green".toList, none⟩,
        ⟨"blue".toList, some "0.6%".toList⟩] placed := by
  let red : Stop := ⟨"red".toList, some "0.6%".toList⟩
  let green : Stop := ⟨"green".toList, none⟩
  let blue : Stop := ⟨"blue".toList, some "0.6%".toList⟩
  have h : place [red, green, blue] = .ok [⟨red, some (.ofRat (6 / 1000))⟩,
      ⟨green, some (.ofRat (1 / 100))⟩, ⟨blue, some (.ofRat (1 / 100))⟩] :=
    eq_ok_of_toOption (by decide +kernel)
  have hown : ownOffsets [red, green, blue] =
      .ok [some (.ofRat (6 / 1000)), none, some (.ofRat (6 / 1000))] :=
    eq_ok_of_toOption (by decide +kernel)
  refine ⟨_, h, fun hkeeps => ?_⟩
  obtain ⟨x, hx, ⟨k, hk, y, hy, hxy⟩, -⟩ := hkeeps 2 _ ((isOwn_iff hown).2 rfl)
  rw [isOwn_iff hown] at hy
  obtain rfl := Option.some.inj hx
  have hy' : y = .ofRat (6 / 1000) := by
    match k, hk with
    | 0, _ | 2, _ => exact (Option.some.inj (Option.some.inj hy)).symm
    | 1, _ => exact absurd (Option.some.inj hy) (Option.some_ne_none y).symm
  rw [hy'] at hxy
  exact absurd hxy (by decide +kernel)

end LegacyGradient.Placement
