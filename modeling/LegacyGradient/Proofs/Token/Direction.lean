/-
  LegacyGradient.Proofs.Token.Direction

  Directions in front of the comma that ends them. The scan of a direction tries angles before
  keywords and two keywords before one; none of the alternatives it passes over can match further
  once the comma is in sight, so the same direction is found in front of any text of that kind
  (`scan_append`).
-/
import LegacyGradient.Direction.Lexeme
import LegacyGradient.Proofs.Text.Classes
import LegacyGradient.Proofs.Text.Cut

namespace LegacyGradient

open Number (isNumeric)
open Text (Outside)

/-! ## Keywords of edges -/

namespace Side

variable {t rest v : Text} {s s' : Side}

/-- The first letter of the keyword. -/
def initial : Side → Char
  | top => 't'
  | bottom => 'b'
  | left => 'l'
  | right => 'r'

theorem name_eq_cons : ∀ s : Side, s.name = s.initial :: s.name.tail
  | top | bottom | left | right => rfl

theorem isLower_initial : ∀ s : Side, s.initial.isLower = true
  | top | bottom | left | right => rfl

theorem isLower_name : ∀ s : Side, ∀ c ∈ s.name, c.isLower = true
  | top | bottom | left | right => List.all_eq_true.1 rfl

theorem eq_of_initial (h : s.initial = s'.initial) : s = s' := by
  cases s <;> cases s' <;> first | rfl | exact absurd h (by decide)

/-- The keywords of two edges begin with different letters. -/
theorem eq_of_name_append (h : s.name ++ v = s'.name ++ rest) : s = s' := by
  rw [name_eq_cons s, name_eq_cons s'] at h
  exact eq_of_initial (List.cons.inj h).1

theorem scanAs_eq_some_iff : s.scanAs t = some (s', rest) ↔ s' = s ∧ t = s.name ++ rest := by
  simp only [scanAs, Option.map_eq_some_iff, Prod.mk.injEq, Prod.exists, Lexeme.word_eq_some_iff]
  constructor
  · rintro ⟨m, r, ⟨rfl, rfl⟩, rfl, rfl⟩
    exact ⟨rfl, rfl⟩
  · rintro ⟨rfl, rfl⟩
    exact ⟨_, _, ⟨rfl, rfl⟩, rfl, rfl⟩

theorem scanAs_eq_none (h : s ≠ s') : s.scanAs (s'.name ++ v) = none := by
  refine Option.eq_none_iff_forall_ne_some.2 fun found hfound => ?_
  obtain ⟨-, ht⟩ := scanAs_eq_some_iff.1 hfound
  exact h (eq_of_name_append ht).symm

/-- Of two edges with keywords of their own the order of the attempts does not matter. -/
theorem scanAs_or_eq_some_iff {s₁ s₂ : Side} (hne : s₁ ≠ s₂) :
    (s₁.scanAs t <|> s₂.scanAs t) = some (s, rest) ↔
      (s = s₁ ∨ s = s₂) ∧ t = s.name ++ rest := by
  simp only [Option.orElse_eq_orElse, Option.orElse_eq_or, Option.or_eq_some_iff,
    scanAs_eq_some_iff]
  constructor
  · rintro (⟨rfl, rfl⟩ | ⟨-, rfl, rfl⟩)
    · exact ⟨.inl rfl, rfl⟩
    · exact ⟨.inr rfl, rfl⟩
  · rintro ⟨rfl | rfl, rfl⟩
    · exact .inl ⟨rfl, rfl⟩
    · exact .inr ⟨scanAs_eq_none hne, rfl, rfl⟩

theorem scanVertical_eq_some_iff :
    scanVertical t = some (s, rest) ↔ (s = top ∨ s = bottom) ∧ t = s.name ++ rest :=
  scanAs_or_eq_some_iff (by decide)

theorem scanHorizontal_eq_some_iff :
    scanHorizontal t = some (s, rest) ↔ (s = left ∨ s = right) ∧ t = s.name ++ rest :=
  scanAs_or_eq_some_iff (by decide)

/-- No keyword begins with anything but a letter. -/
theorem not_outside_name (s : Side) (v : Text) : ¬ Outside Char.isLower (s.name ++ v) := by
  rw [name_eq_cons, List.cons_append, Text.outside_cons, isLower_initial]
  exact Bool.noConfusion

theorem scanVertical_eq_none_of_outside (h : Outside Char.isLower t) : scanVertical t = none := by
  refine Option.eq_none_iff_forall_ne_some.2 fun found hfound => ?_
  obtain ⟨-, rfl⟩ := scanVertical_eq_some_iff.1 hfound
  exact not_outside_name _ _ h

theorem scanHorizontal_eq_none_of_outside (h : Outside Char.isLower t) :
    scanHorizontal t = none := by
  refine Option.eq_none_iff_forall_ne_some.2 fun found hfound => ?_
  obtain ⟨-, rfl⟩ := scanHorizontal_eq_some_iff.1 hfound
  exact not_outside_name _ _ h

theorem scanVertical_eq_none (h : s = left ∨ s = right) : scanVertical (s.name ++ v) = none := by
  refine Option.eq_none_iff_forall_ne_some.2 fun found hfound => ?_
  obtain ⟨hs, ht⟩ := scanVertical_eq_some_iff.1 hfound
  rw [← eq_of_name_append ht] at hs
  rcases h with rfl | rfl <;> simp at hs

theorem scan_eq_some_iff : scan t = some (s, rest) ↔ t = s.name ++ rest := by
  simp only [scan, Option.orElse_eq_orElse, Option.orElse_eq_or, Option.or_eq_some_iff,
    scanHorizontal_eq_some_iff]
  constructor
  · rintro (h | ⟨-, -, rfl⟩)
    · exact (scanVertical_eq_some_iff.1 h).2
    · rfl
  · rintro rfl
    cases s with
    | top => exact .inl (scanVertical_eq_some_iff.2 ⟨.inl rfl, rfl⟩)
    | bottom => exact .inl (scanVertical_eq_some_iff.2 ⟨.inr rfl, rfl⟩)
    | left => exact .inr ⟨scanVertical_eq_none (.inl rfl), .inl rfl, rfl⟩
    | right => exact .inr ⟨scanVertical_eq_none (.inr rfl), .inr rfl, rfl⟩

end Side

/-! ## Directions -/

namespace Direction

variable {t rest v : Text} {d : Direction} {sides : List Side} {degrees : Binary64}

/-- The text is empty, or a comma stands in it with at most blanks before it. -/
def AtComma (v : Text) : Prop := v = [] ∨ ∃ g u, (∀ c ∈ g, Text.isGap c = true) ∧ v = g ++ ',' :: u

/-- No character of a token comes first where a direction has ended. -/
theorem AtComma.outside {p : Char → Bool} (hv : AtComma v) (hcomma : p ',' = false)
    (hp : ∀ c, p c = true → Text.isBlank c = false) : Outside p v := by
  rcases hv with rfl | ⟨g, u, hg, rfl⟩
  · exact Text.outside_nil
  · exact (Text.outside_of_isGap hp hg).append (Text.outside_cons.2 hcomma)

theorem scanTwo_eq_some_iff {first second : Text → Option (Side × Text)} :
    scanTwo first second t = some (sides, rest) ↔
      ∃ s s' g r r', first t = some (s, r) ∧ Lexeme.gap1 r = some (g, r') ∧
        second r' = some (s', rest) ∧ sides = [s, s'] := by
  simp only [scanTwo, Option.bind_eq_bind, Option.bind_eq_some_iff, Prod.exists, Option.pure_def,
    Option.some.injEq, Prod.mk.injEq]
  grind

/-- What may follow the first keyword of a direction: nothing, or blanks and another keyword. -/
def SecondKeyword (m : Text) : Prop :=
  m = [] ∨ ∃ (g : Text) (s : Side), (∀ c ∈ g, Text.isGap c = true) ∧ g ≠ [] ∧ m = g ++ s.name

/-- Two keywords are found again in front of any text. -/
theorem scanTwo_append {first second : Text → Option (Side × Text)} {p q : Side → Prop}
    (hfirst : ∀ {t s rest}, first t = some (s, rest) ↔ p s ∧ t = s.name ++ rest)
    (hsecond : ∀ {t s rest}, second t = some (s, rest) ↔ q s ∧ t = s.name ++ rest)
    (h : scanTwo first second t = some (sides, rest)) :
    ∃ s m, p s ∧ SecondKeyword m ∧ t = s.name ++ (m ++ rest) ∧
      ∀ v, scanTwo first second (s.name ++ (m ++ v)) = some (sides, v) := by
  obtain ⟨s, s', g, r, r', hs, hgap, hs', rfl⟩ := scanTwo_eq_some_iff.1 h
  obtain ⟨hp, rfl⟩ := hfirst.1 hs
  obtain ⟨hq, rfl⟩ := hsecond.1 hs'
  obtain ⟨rfl, hall, -, hne⟩ := Lexeme.run1_eq_some_iff.1 hgap
  refine ⟨s, g ++ s'.name, hp, .inr ⟨g, s', hall, hne, rfl⟩, by rw [List.append_assoc],
    fun v => ?_⟩
  refine scanTwo_eq_some_iff.2 ⟨s, s', g, _, s'.name ++ v, hfirst.2 ⟨hp, rfl⟩, ?_,
    hsecond.2 ⟨hq, rfl⟩, rfl⟩
  refine Lexeme.run1_eq_some_iff.2 ⟨by rw [List.append_assoc], hall, ?_, hne⟩
  rw [Side.name_eq_cons]
  exact Text.outside_cons.2 (Text.isGap_eq_false (Text.isBlank_of_isLower s'.isLower_initial))

/-- A single keyword at its comma is not the first of two. -/
theorem scanTwo_eq_none {first second : Text → Option (Side × Text)}
    (hfirst : ∀ s r, first t = some (s, r) → AtComma r)
    (hsecond : ∀ u, second (',' :: u) = none) : scanTwo first second t = none := by
  refine Option.eq_none_iff_forall_ne_some.2 fun found hfound => ?_
  obtain ⟨s, s', g, r, r', hs, hgap, hs', -⟩ := scanTwo_eq_some_iff.1 hfound
  obtain ⟨hr, hall, hout, hne⟩ := Lexeme.run1_eq_some_iff.1 hgap
  rcases hfirst s r hs with rfl | ⟨g', u, hg', rfl⟩
  · exact hne (List.append_eq_nil_iff.1 hr.symm).1
  · -- both take the longest run of blanks, after which the comma stands
    have hr' := Text.dropWhile_append_outside hall hout
    rw [← hr, Text.dropWhile_append_outside hg' (Text.outside_cons.2 rfl)] at hr'
    rw [← hr', hsecond u] at hs'
    contradiction

/-- Keywords are found again at any comma. -/
theorem scanKeywords_append (h : scanKeywords t = some (sides, rest)) :
    ∃ (s : Side) (m : Text), SecondKeyword m ∧ t = s.name ++ (m ++ rest) ∧
      ∀ v, AtComma v → scanKeywords (s.name ++ (m ++ v)) = some (sides, v) := by
  simp only [scanKeywords, Option.orElse_eq_orElse, Option.orElse_eq_or, Option.or_eq_some_iff,
    Option.map_eq_some_iff] at h ⊢
  rcases h with h | ⟨-, h | ⟨-, ⟨s, r⟩, hs, hsides⟩⟩
  · obtain ⟨s, m, -, hm, rfl, hscan⟩ := scanTwo_append Side.scanVertical_eq_some_iff
      Side.scanHorizontal_eq_some_iff h
    exact ⟨s, m, hm, rfl, fun v _ => .inl (hscan v)⟩
  · obtain ⟨s, m, hs, hm, rfl, hscan⟩ := scanTwo_append Side.scanHorizontal_eq_some_iff
      Side.scanVertical_eq_some_iff h
    refine ⟨s, m, hm, rfl, fun v _ => .inr ⟨scanTwo_eq_none (fun s' r hs' => ?_) ?_, .inl (hscan v)⟩⟩
    · rw [Side.scanVertical_eq_none hs] at hs'
      contradiction
    · exact fun u => Side.scanHorizontal_eq_none_of_outside (Text.outside_cons.2 rfl)
  · simp only [Prod.mk.injEq] at hsides
    obtain ⟨rfl, rfl⟩ := hsides
    obtain rfl := Side.scan_eq_some_iff.1 hs
    refine ⟨s, [], .inl rfl, rfl, fun v hv => ?_⟩
    have hrest : ∀ s' r', s.name ++ v = Side.name s' ++ r' → AtComma r' := fun s' r' ht => by
      obtain rfl := Side.eq_of_name_append ht
      rwa [← List.append_cancel_left ht]
    refine .inr ⟨scanTwo_eq_none (fun s' r' hs' => ?_) ?_, .inr ⟨scanTwo_eq_none (fun s' r' hs' => ?_)
      ?_, (s, v), Side.scan_eq_some_iff.2 rfl, rfl⟩⟩
    · exact hrest s' r' (Side.scanVertical_eq_some_iff.1 hs').2
    · exact fun u => Side.scanHorizontal_eq_none_of_outside (Text.outside_cons.2 rfl)
    · exact hrest s' r' (Side.scanHorizontal_eq_some_iff.1 hs').2
    · exact fun u => Side.scanVertical_eq_none_of_outside (Text.outside_cons.2 rfl)

/-- An angle is found again at any comma. -/
theorem scanAngle_append (h : scanAngle t = some (degrees, rest)) :
    ∃ m, t = m ++ rest ∧ ∀ v, AtComma v → scanAngle (m ++ v) = some (degrees, v) := by
  simp only [scanAngle, Option.orElse_eq_orElse, Option.orElse_eq_or, Option.or_eq_some_iff,
    Option.bind_eq_bind, Option.bind_eq_some_iff, Prod.exists, Option.pure_def, Option.some.injEq,
    Prod.mk.injEq, Lexeme.word_eq_some_iff, Lexeme.char_eq_some_iff] at h ⊢
  rcases h with ⟨n, r, hn, m, r', ⟨rfl, rfl⟩, rfl, rfl⟩ | ⟨-, m, r, ⟨rfl, rfl⟩, rfl, rfl⟩
  · -- the number halts at its unit
    have hhalts : Number.lexeme.HaltsAt 'd' := Number.lexeme_haltsAt rfl
    refine ⟨n ++ "deg".toList, ?_, fun v _ => ?_⟩
    · rw [← Number.lexeme.append_of_scan hn, List.append_assoc]
    · refine .inl ⟨n, "deg".toList ++ v, ?_, _, v, ⟨rfl, rfl⟩, rfl, rfl⟩
      rw [List.append_assoc]
      exact hhalts.scan hn _
  · refine ⟨['0'], rfl, fun v hv => .inr ⟨?_, ['0'], v, ⟨rfl, rfl⟩, rfl, rfl⟩⟩
    have hnumeric : Outside isNumeric v := hv.outside rfl fun c => Text.isBlank_of_isNumeric
    have hunit : Lexeme.word "deg".toList v = none := by
      refine Lexeme.word_eq_none_iff.2 ?_
      rintro ⟨u, rfl⟩
      have : Outside Char.isLower ("deg".toList ++ u) :=
        hv.outside rfl fun c => Text.isBlank_of_isLower
      exact absurd (Text.outside_cons.1 this) (by decide)
    simp only [List.singleton_append, Number.lexeme_zero hnumeric, Option.bind_some, hunit,
      Option.bind_none]

/-- No angle begins with a letter. -/
theorem scanAngle_eq_none (h : Outside isNumeric t) : scanAngle t = none := by
  have hzero : Lexeme.char '0' t = none :=
    Lexeme.char_eq_none (h.mono (by simp +contextual [isNumeric]))
  simp [scanAngle, Number.lexeme_eq_none h, hzero]

theorem scan_eq_some_iff :
    scan t = some (d, rest) ↔
      (∃ degrees, scanAngle t = some (degrees, rest) ∧ d = angle degrees) ∨
        scanAngle t = none ∧ ∃ sides, scanKeywords t = some (sides, rest) ∧ d = keywords sides := by
  simp only [scan, Option.orElse_eq_orElse, Option.orElse_eq_or, Option.or_eq_some_iff,
    Option.map_eq_some_iff, Option.map_eq_none_iff, Prod.exists, Prod.mk.injEq]
  grind

/-- A direction begins with a letter or with a character of a number. -/
theorem scan_eq_none (hnumeric : Outside isNumeric t) (hlower : Outside Char.isLower t) :
    scan t = none := by
  refine Option.eq_none_iff_forall_ne_some.2 fun found hfound => ?_
  rcases scan_eq_some_iff.1 hfound with ⟨degrees, hs, -⟩ | ⟨-, sides, hs, -⟩
  · rw [scanAngle_eq_none hnumeric] at hs
    contradiction
  · obtain ⟨s, m, -, rfl, -⟩ := scanKeywords_append hs
    exact Side.not_outside_name s _ hlower

/-- No blank comes first in a direction. -/
theorem outside_isGap_of_scan (h : scan t = some (d, rest)) : t ≠ [] ∧ Outside Text.isGap t := by
  cases t with
  | nil => rw [scan_eq_none Text.outside_nil Text.outside_nil] at h; contradiction
  | cons c t =>
    refine ⟨by simp, Text.outside_cons.2 ?_⟩
    refine Bool.eq_false_iff.2 fun hgap => ?_
    have hc : ∀ c' ∈ [c], Text.isGap c' = true := by simpa using hgap
    have hnumeric := Text.outside_of_isGap (fun _ => Text.isBlank_of_isNumeric) hc
    have hlower := Text.outside_of_isGap (fun _ => Text.isBlank_of_isLower) hc
    rw [scan_eq_none (t := c :: t) (by simpa using hnumeric) (by simpa using hlower)] at h
    contradiction

/-- A direction is found again at any comma. -/
theorem scan_append (h : scan t = some (d, rest)) :
    ∃ m, t = m ++ rest ∧ ∀ v, AtComma v → scan (m ++ v) = some (d, v) := by
  simp only [scan_eq_some_iff] at h ⊢
  rcases h with ⟨degrees, hs, rfl⟩ | ⟨-, sides, hs, rfl⟩
  · obtain ⟨m, rfl, hscan⟩ := scanAngle_append hs
    exact ⟨m, rfl, fun v hv => .inl ⟨degrees, hscan v hv, rfl⟩⟩
  · obtain ⟨s, m, -, rfl, hscan⟩ := scanKeywords_append hs
    refine ⟨s.name ++ m, by rw [List.append_assoc], fun v hv => .inr ⟨?_, sides, ?_, rfl⟩⟩
    · refine scanAngle_eq_none ?_
      rw [Side.name_eq_cons]
      exact Text.outside_cons.2 (Number.isNumeric_of_isLower s.isLower_initial)
    · rw [List.append_assoc]
      exact hscan v hv

/-! ## What a direction holds -/

theorem scanAngle_sealed (h : scanAngle t = some (degrees, [])) : Text.SealedFrom 0 t := by
  simp only [scanAngle, Option.orElse_eq_orElse, Option.orElse_eq_or, Option.or_eq_some_iff,
    Option.bind_eq_bind, Option.bind_eq_some_iff, Prod.exists, Option.pure_def, Option.some.injEq,
    Prod.mk.injEq, Lexeme.word_eq_some_iff, Lexeme.char_eq_some_iff] at h
  rcases h with ⟨n, r, hn, m, r', ⟨rfl, rfl⟩, -, rfl⟩ | ⟨-, m, r, ⟨rfl, rfl⟩, -, rfl⟩
  · rw [← Number.lexeme.append_of_scan hn]
    exact (Number.lexeme_sealed hn).append (Text.sealedFrom_of_all (by decide))
  · exact Text.sealedFrom_of_all (by decide)

theorem scanKeywords_sealed (h : scanKeywords t = some (sides, [])) : Text.SealedFrom 0 t := by
  have hname : ∀ s : Side, Text.SealedFrom 0 s.name := fun s =>
    Text.sealedFrom_of_class rfl rfl rfl s.isLower_name
  obtain ⟨s, m, hm, rfl, -⟩ := scanKeywords_append h
  rw [List.append_nil]
  apply (hname s).append
  rcases hm with rfl | ⟨g, s', hg, -, rfl⟩
  · exact Text.sealedFrom_nil
  · exact (Text.sealedFrom_of_class rfl rfl rfl hg).append (hname s')

/-- A direction holds no comma and no parenthesis. -/
theorem scan_sealed (h : scan t = some (d, [])) : Text.SealedFrom 0 t := by
  rcases scan_eq_some_iff.1 h with ⟨degrees, hs, -⟩ | ⟨-, sides, hs, -⟩
  · exact scanAngle_sealed hs
  · exact scanKeywords_sealed hs

/-- A direction in keywords names one edge at least. -/
theorem sides_ne_nil (h : scan t = some (keywords sides, rest)) : sides ≠ [] := by
  rcases scan_eq_some_iff.1 h with ⟨degrees, -, hd⟩ | ⟨-, sides', hs, hd⟩
  · contradiction
  · obtain rfl := keywords.inj hd
    simp only [scanKeywords, Option.orElse_eq_orElse, Option.orElse_eq_or, Option.or_eq_some_iff,
      Option.map_eq_some_iff, Prod.exists, Prod.mk.injEq] at hs
    rcases hs with hs | ⟨-, hs | ⟨-, s, r, -, rfl, -⟩⟩
    · obtain ⟨s, s', g, r, r', -, -, -, rfl⟩ := scanTwo_eq_some_iff.1 hs
      simp
    · obtain ⟨s, s', g, r, r', -, -, -, rfl⟩ := scanTwo_eq_some_iff.1 hs
      simp
    · simp

end Direction

end LegacyGradient
