/-
  LegacyGradient.Proofs.Json.Numeral

  Numbers in a JSON text. The parts of a number are found again in its text (`numeralText_append`).
  If its digits fit into 64 bits, the value that is read is their significand, rounded, and scaled
  by the power of ten that is left when the point is moved behind the last digit (`ofText?_eq`).
-/
import LegacyGradient.Json.Numeral
import LegacyGradient.Proofs.Decimal.Digits
import LegacyGradient.Proofs.Json.Reads
import LegacyGradient.Proofs.Text.Classes

namespace LegacyGradient.Json

open Text (Outside natOfDigits)

variable {t : NumeralText} {ds v rest : Text} {c : Char} {n : Nat}

/-! ## The text of a number -/

theorem isDigits_ofNat (n : Nat) : IsDigits (Text.ofNat n) :=
  ⟨Text.ofNat_ne_nil n, fun _ => Text.isDigit_of_mem_ofNat⟩

/-- The text of a power of ten, with its sign. -/
def powerText (power : Int) : Text :=
  'e' :: (if power < 0 then '-' else '+') :: Text.ofNat power.natAbs

namespace NumeralText

/-- The text of a number of these parts. -/
def text (t : NumeralText) : Text :=
  (if t.negative then ['-'] else []) ++
    (t.whole ++ (t.fraction.elim [] ('.' :: ·) ++ t.power.elim [] powerText))

/-- There are digits wherever digits have to be, and no zero comes first among several digits. -/
structure Plain (t : NumeralText) : Prop where
  /-- There are digits before the point. -/
  whole_ne : t.whole ≠ []
  /-- Nothing but digits stands before the point. -/
  whole_digits : ∀ c ∈ t.whole, c.isDigit = true
  /-- A zero stands alone before the point. -/
  whole_head : t.whole.head? = some '0' → t.whole.length = 1
  /-- There are digits after the point, and nothing else. -/
  fraction_digits : ∀ ds ∈ t.fraction, ds ≠ [] ∧ ∀ c ∈ ds, c.isDigit = true

/-- All digits of a number. -/
def digits (t : NumeralText) : Text := t.whole ++ t.fraction.getD []

/-- A number begins with its sign or a digit. -/
theorem Plain.text_eq_cons (h : t.Plain) :
    ∃ c u, t.text = c :: u ∧ Text.isGap c = false ∧ Reader.beginsNumber c = true := by
  obtain ⟨c, whole, hwhole⟩ := List.exists_cons_of_ne_nil h.whole_ne
  have hdigit := h.whole_digits c (by rw [hwhole]; exact List.mem_cons_self ..)
  rw [NumeralText.text, hwhole]
  cases t.negative with
  | false =>
    exact ⟨c, _, rfl, Text.isGap_eq_false (Text.isBlank_of_isDigit hdigit), by
      rw [Reader.beginsNumber, hdigit, Bool.or_true]⟩
  | true => exact ⟨'-', _, rfl, rfl, rfl⟩

end NumeralText

/-! ## Finding its parts -/

namespace Reader

/-- The characters with which a number might go on. -/
def continuesNumber (c : Char) : Bool := c.isDigit || c == '.' || c == 'e' || c == 'E'

/-- What ends a value ends a number. -/
theorem outside_continuesNumber (hv : Ends v) : Outside continuesNumber v := by
  refine hv.outside (fun c hc => ?_) ⟨rfl, rfl, rfl⟩
  simp only [Text.isGap, Bool.or_eq_true, beq_iff_eq] at hc
  rcases hc with ((rfl | rfl) | rfl) | rfl <;> rfl

theorem digits1_append (problem : Problem) (hne : ds ≠ []) (hds : ∀ c ∈ ds, c.isDigit = true)
    (hv : Outside Char.isDigit v) : (digits1 problem).run (ds ++ v) = .ok (ds, v) := by
  obtain ⟨c, ds', rfl⟩ := List.exists_cons_of_ne_nil hne
  rw [digits1]
  refine (run_bind_ok (a := some c) rfl).trans ?_
  dsimp only
  rw [if_pos (hds c (by simp))]
  show Except.ok _ = _
  rw [Text.takeWhile_append_outside hds hv, Text.dropWhile_append_outside hds hv]

theorem wholeDigits_append (problem : Problem) (hne : ds ≠ []) (hds : ∀ c ∈ ds, c.isDigit = true)
    (hhead : ds.head? = some '0' → ds.length = 1) (hv : Outside Char.isDigit v) :
    (wholeDigits problem).run (ds ++ v) = .ok (ds, v) := by
  have hfirst : here.run (ds ++ v) = .ok (ds.head?, ds ++ v) := by
    obtain ⟨c, ds', rfl⟩ := List.exists_cons_of_ne_nil hne
    rfl
  rw [wholeDigits, run_bind_ok hfirst, run_bind_ok (digits1_append problem hne hds hv),
    if_neg (fun h => h.2 (hhead h.1))]
  rfl

theorem fractionDigits_append (problem : Problem) {fraction : Option Text}
    (hfraction : ∀ ds ∈ fraction, ds ≠ [] ∧ ∀ c ∈ ds, c.isDigit = true)
    (hv : Outside (fun c => c.isDigit || c == '.') v) :
    (fractionDigits problem).run (fraction.elim [] ('.' :: ·) ++ v) = .ok (fraction, v) := by
  cases fraction with
  | none =>
    have hpoint : v.head? ≠ some '.' := fun h => by
      have := hv '.' h
      contradiction
    rw [fractionDigits]
    refine (run_bind_ok (a := v.head?) rfl).trans ?_
    rw [if_neg hpoint]
    rfl
  | some ds =>
    obtain ⟨hne, hds⟩ := hfraction ds rfl
    have hdigit : Outside Char.isDigit v := hv.mono fun c hc => by simp [hc]
    rw [fractionDigits]
    refine (run_bind_ok (a := some '.') rfl).trans ?_
    rw [if_pos rfl]
    exact run_bind_ok (digits1_append problem hne hds hdigit)

/-- No power of ten is found where no number goes on. -/
theorem powerOfTen_outside (problem : Problem) (hv : Outside continuesNumber v) :
    (powerOfTen problem).run v = .ok (none, v) := by
  have hletter : ¬ (v.head? = some 'e' ∨ v.head? = some 'E') := by
    rintro (h | h)
    · exact absurd (hv _ h) (by decide)
    · exact absurd (hv _ h) (by decide)
  rw [powerOfTen]
  refine (run_bind_ok (a := v.head?) rfl).trans ?_
  rw [if_neg hletter]
  rfl

/-- A power of ten is found with either letter, and with or without a sign. -/
theorem powerOfTen_signed (problem : Problem) (letter : Char) (sign : Text)
    (hletter : letter ∈ ['e', 'E']) (hsign : sign ∈ [[], ['+'], ['-']]) (hds : IsDigits ds)
    (hv : Outside Char.isDigit v) :
    (powerOfTen problem).run (letter :: (sign ++ (ds ++ v))) =
      .ok (some (if sign = ['-'] then -(natOfDigits ds : Int) else natOfDigits ds), v) := by
  have hletter' : some letter = some 'e' ∨ some letter = some 'E' := by simpa using hletter
  have hdigits := digits1_append problem hds.1 hds.2 hv
  rw [powerOfTen]
  refine (run_bind_ok (a := some letter) rfl).trans ?_
  rw [if_pos hletter', run_skip1]
  simp only [List.mem_cons, List.not_mem_nil, or_false] at hsign
  rcases hsign with rfl | rfl | rfl
  · obtain ⟨c, ds', rfl⟩ := List.exists_cons_of_ne_nil hds.1
    have hc : c.isDigit = true := hds.2 c (List.mem_cons_self ..)
    have hplus : c ≠ '+' := by rintro rfl; contradiction
    have hminus : c ≠ '-' := by rintro rfl; contradiction
    rw [List.nil_append]
    refine (run_bind_ok (a := some c) rfl).trans ?_
    rw [if_neg (by simp [hplus, hminus])]
    refine (run_bind_ok hdigits).trans ?_
    simp only [Option.some.injEq, if_neg hminus]
    rfl
  · exact (run_bind_ok (a := some '+') rfl).trans (run_bind_ok hdigits)
  · exact (run_bind_ok (a := some '-') rfl).trans (run_bind_ok hdigits)

theorem powerOfTen_append (problem : Problem) (power : Option Int)
    (hv : Outside continuesNumber v) :
    (powerOfTen problem).run (power.elim [] powerText ++ v) = .ok (power, v) := by
  cases power with
  | none => exact powerOfTen_outside problem hv
  | some k =>
    have hdigit : Outside Char.isDigit v := hv.mono fun c hc => by simp [continuesNumber, hc]
    have hds := isDigits_ofNat k.natAbs
    rw [Option.elim_some, powerText]
    by_cases hk : k < 0
    · have hread := powerOfTen_signed problem 'e' ['-'] (by decide)
        (by decide) hds hdigit
      have hvalue : -(k.natAbs : Int) = k := by omega
      rw [Text.natOfDigits_ofNat, if_pos rfl, hvalue] at hread
      rw [if_pos hk]
      exact hread
    · have hread := powerOfTen_signed problem 'e' ['+'] (by decide)
        (by decide) hds hdigit
      have hvalue : (k.natAbs : Int) = k := by omega
      rw [Text.natOfDigits_ofNat, if_neg (by decide), hvalue] at hread
      rw [if_neg hk]
      exact hread

theorem outside_powerText {p : Char → Bool} (he : p 'e' = false) (hv : Outside p v)
    (power : Option Int) : Outside p (power.elim [] powerText ++ v) := by
  cases power with
  | none => exact hv
  | some k => exact Text.outside_cons.2 he

/-- The parts of a number are found in its text if its power of ten is. -/
theorem numeralText_parts (problem : Problem) (negative : Bool) {whole power : Text}
    {fraction : Option Text} {k : Option Int} (hne : whole ≠ [])
    (hwhole : ∀ c ∈ whole, c.isDigit = true) (hhead : whole.head? = some '0' → whole.length = 1)
    (hfraction : ∀ ds ∈ fraction, ds ≠ [] ∧ ∀ c ∈ ds, c.isDigit = true)
    (hpoint : Outside (fun c => c.isDigit || c == '.') (power ++ v))
    (hpower : (powerOfTen problem).run (power ++ v) = .ok (k, v)) :
    (numeralText problem).run ((if negative then ['-'] else []) ++
      (whole ++ (fraction.elim [] ('.' :: ·) ++ (power ++ v)))) =
        .ok (⟨negative, whole, fraction, k⟩, v) := by
  have hdigit : Outside Char.isDigit (fraction.elim [] ('.' :: ·) ++ (power ++ v)) := by
    cases fraction with
    | none => exact hpoint.mono fun c hc => by simp [hc]
    | some ds => exact Text.outside_cons.2 rfl
  have hread := wholeDigits_append problem hne hwhole hhead hdigit
  have hread' := fractionDigits_append problem hfraction hpoint
  rw [numeralText]
  cases negative with
  | false =>
    obtain ⟨c, whole', rfl⟩ := List.exists_cons_of_ne_nil hne
    have hc : some c ≠ some '-' := by
      intro hc
      have := hwhole c (List.mem_cons_self ..)
      rw [Option.some.inj hc] at this
      contradiction
    refine (run_bind_ok (a := some c) rfl).trans ?_
    rw [if_neg hc]
    refine (run_bind_ok hread).trans ((run_bind_ok hread').trans ((run_bind_ok hpower).trans ?_))
    rw [decide_eq_false hc]
    rfl
  | true =>
    refine (run_bind_ok (a := some '-') rfl).trans ?_
    rw [if_pos rfl]
    refine (run_bind_ok (a := ()) rfl).trans ?_
    exact (run_bind_ok hread).trans ((run_bind_ok hread').trans ((run_bind_ok hpower).trans rfl))

/-- The parts of a number are found in its text, in front of anything with which no number goes
on. -/
theorem numeralText_append (problem : Problem) (h : t.Plain) (hv : Outside continuesNumber v) :
    (numeralText problem).run (t.text ++ v) = .ok (t, v) := by
  obtain ⟨negative, whole, fraction, power⟩ := t
  obtain ⟨hne, hwhole, hhead, hfraction⟩ := h
  have hpoint : Outside (fun c => c.isDigit || c == '.') (power.elim [] powerText ++ v) :=
    outside_powerText rfl (hv.mono fun c hc => by
      rcases Bool.or_eq_true_iff.1 hc with hc | hc <;> simp [continuesNumber, hc]) power
  have hread := numeralText_parts problem negative hne hwhole hhead hfraction hpoint
    (powerOfTen_append problem power hv)
  simpa [NumeralText.text] using hread

/-- Any number is read up to its end, however its power of ten is written. -/
theorem exists_numeralText (problem : Problem) {u : Text} (h : IsNumber u)
    (hv : Outside continuesNumber v) : ∃ t, (numeralText problem).run (u ++ v) = .ok (t, v) := by
  obtain @⟨sign, whole, fraction, power, hsign, hwhole, hzero, hfraction, hpower⟩ := h
  have hdigit : Outside Char.isDigit v := hv.mono fun c hc => by simp [continuesNumber, hc]
  obtain ⟨negative, rfl⟩ : ∃ negative : Bool, sign = if negative then ['-'] else [] := by
    simp only [List.mem_cons, List.not_mem_nil, or_false] at hsign
    rcases hsign with rfl | rfl
    · exact ⟨false, rfl⟩
    · exact ⟨true, rfl⟩
  obtain ⟨fraction', rfl, hfraction'⟩ : ∃ o : Option Text, fraction = o.elim [] ('.' :: ·) ∧
      ∀ ds ∈ o, ds ≠ [] ∧ ∀ c ∈ ds, c.isDigit = true := by
    cases hfraction with
    | none => exact ⟨none, rfl, by simp⟩
    | @some ds hds => exact ⟨some ds, rfl, by rintro _ ⟨⟩; exact hds⟩
  obtain ⟨k, hpoint, hread⟩ : ∃ k, Outside (fun c => c.isDigit || c == '.') (power ++ v) ∧
      (powerOfTen problem).run (power ++ v) = .ok (k, v) := by
    cases hpower with
    | none =>
      refine ⟨none, hv.mono fun c hc => ?_, powerOfTen_outside problem hv⟩
      rcases Bool.or_eq_true_iff.1 hc with hc | hc <;> simp [continuesNumber, hc]
    | @some letter sign ds hletter hsign hds =>
      rw [List.cons_append, List.append_assoc]
      refine ⟨_, Text.outside_cons.2 ?_,
        powerOfTen_signed problem letter sign hletter hsign hds hdigit⟩
      simp only [List.mem_cons, List.not_mem_nil, or_false] at hletter
      rcases hletter with rfl | rfl <;> rfl
  refine ⟨⟨negative, whole, fraction', k⟩, ?_⟩
  have hparts := numeralText_parts problem negative hwhole.1 hwhole.2 hzero
    hfraction' hpoint hread
  simpa using hparts

end Reader

/-! ## Its value -/

namespace Numeral

theorem withDigit?_eq (h : 10 * n + Text.digitValue c ≤ maxWord) :
    withDigit? n c = some (10 * n + Text.digitValue c) := by
  rw [withDigit?]
  exact if_pos h

theorem withDigits_cons (n : Nat) (c : Char) (ds : Text) :
    withDigits n (c :: ds) =
      match withDigit? n c with
      | some m => withDigits m ds
      | none => (n, c :: ds) := by
  -- the equation of the definition would compare numbers of 64 bits one by one
  delta withDigits
  rfl

/-- All digits are used if their number has at most 64 bits. -/
theorem withDigits_eq (h : Text.appendDigits n ds ≤ maxWord) :
    withDigits n ds = (Text.appendDigits n ds, []) := by
  induction ds generalizing n with
  | nil => rfl
  | cons c ds ih =>
    rw [Text.appendDigits_cons] at h ⊢
    rw [withDigits_cons, withDigit?_eq (Nat.le_trans (Text.le_appendDigits _ ds) h)]
    exact ih h

/-- The floating point number for the digits and the place of the last one, if it is finite. -/
def value? (t : NumeralText) : Option Binary64 :=
  (scale? (.ofNat (natOfDigits t.digits)) (t.power.getD 0 - (t.fraction.getD []).length)).map
    fun x => if t.negative then -x else x

/-- A number with a point or a power of ten is read by its digits and the place of the last one. -/
theorem ofText?_eq (hfits : natOfDigits t.digits ≤ maxWord)
    (hform : t.fraction ≠ none ∨ t.power ≠ none) : ofText? t = (value? t).map floating := by
  rw [value?, Option.map_map]
  obtain ⟨negative, whole, fraction, power⟩ := t
  rw [NumeralText.digits, Text.natOfDigits_append] at hfits ⊢
  dsimp only at hfits hform ⊢
  have hwhole : withDigits 0 whole = (natOfDigits whole, []) :=
    withDigits_eq (Nat.le_trans (Text.le_appendDigits _ _) hfits)
  have hfraction := withDigits_eq hfits
  rw [ofText?]
  dsimp only
  rw [hwhole]
  have hplace : power.getD 0 + (([] : Text).length : Int) -
      ((fraction.getD []).length - (([] : Text).length : Int)) =
      power.getD 0 - (fraction.getD []).length := by
    simp only [List.length_nil, Int.natCast_zero, Int.add_zero, Int.sub_zero]
  split
  · exact absurd hform (by decide)
  · dsimp only
    rw [hfraction, hplace]
    rfl

theorem scale?_natCast {k : Nat} (hk : k ≤ 308) (x : Binary64) :
    scale? x k = if (x * tenPow k).IsFinite then some (x * tenPow k) else none := by
  rw [scale?, Int.natAbs_natCast, if_pos hk, if_pos (Int.natCast_nonneg k)]

theorem scale?_neg {k : Nat} (hpos : 0 < k) (hk : k ≤ 308) (x : Binary64) :
    scale? x (-k) = some (x / tenPow k) := by
  rw [scale?, Int.natAbs_neg, Int.natAbs_natCast, if_pos hk, if_neg (by omega)]

end Numeral

namespace Reader

theorem numeral_append (h : t.Plain) (hv : Outside continuesNumber v) :
    numeral.run (t.text ++ v) =
      (Numeral.ofText? t).elim (.error .malformed) fun n => .ok (n, v) := by
  rw [numeral, run_bind_ok (numeralText_append .truncated h hv)]
  cases Numeral.ofText? t <;> rfl

/-- Only zero itself is written with a zero in front. -/
theorem length_ofNat_of_head (h : (Text.ofNat n).head? = some '0') : (Text.ofNat n).length = 1 := by
  rcases Nat.eq_zero_or_pos n with rfl | hn
  · rfl
  · exact absurd h (Text.head_ofNat hn)

theorem isNumber_ofNat (n : Nat) : IsNumber (Text.ofNat n) := by
  have hnumber : IsNumber ([] ++ (Text.ofNat n ++ ([] ++ []))) :=
    .intro (by simp) (isDigits_ofNat n) length_ofNat_of_head .none .none
  simpa using hnumber

theorem skipsBlanks_natural : natural.SkipsBlanks := skipsBlanks_peek.bind _

/-- A natural number of at most 64 bits is read from its decimal digits. -/
theorem natural_gives (hn : n ≤ Numeral.maxWord) : natural.Gives (Text.ofNat n) (.ok n) := by
  intro v hv
  let t : NumeralText := ⟨false, Text.ofNat n, none, none⟩
  have hplain : t.Plain := ⟨Text.ofNat_ne_nil n, fun _ => Text.isDigit_of_mem_ofNat,
    length_ofNat_of_head, by simp [t]⟩
  have htext : t.text = Text.ofNat n := by simp [t, NumeralText.text]
  have hdigits : Numeral.withDigits 0 (Text.ofNat n) = (n, []) := by
    have hvalue : Text.appendDigits 0 (Text.ofNat n) = n := Text.natOfDigits_ofNat n
    rw [Numeral.withDigits_eq (by rwa [hvalue]), hvalue]
  have hvalue : Numeral.ofText? t = some (.natural n) := by
    simp only [Numeral.ofText?, t, hdigits]
    rfl
  have hread := numeral_append hplain (outside_continuesNumber hv)
  obtain ⟨c, u, hcons, hgap, hnumber⟩ := hplain.text_eq_cons
  rw [hvalue, hcons, List.cons_append] at hread
  rw [← htext, hcons, List.cons_append, natural, run_peek hgap]
  dsimp only
  rw [if_pos hnumber]
  exact run_bind_ok hread

/-- A number with a point or a power of ten is read as its value, and refused if that is not
finite. -/
theorem binary64_gives (h : t.Plain) (hfits : natOfDigits t.digits ≤ Numeral.maxWord)
    (hform : t.fraction ≠ none ∨ t.power ≠ none) :
    binary64.Gives t.text ((Numeral.value? t).elim (.error .malformed) .ok) := by
  intro v hv
  have hread := numeral_append h (outside_continuesNumber hv)
  obtain ⟨c, u, htext, hgap, hnumber⟩ := h.text_eq_cons
  rw [Numeral.ofText?_eq hfits hform] at hread
  rw [htext, List.cons_append] at hread ⊢
  rw [binary64, run_peek hgap]
  dsimp only
  rw [if_pos hnumber]
  cases hvalue : Numeral.value? t with
  | none =>
    rw [hvalue] at hread
    exact run_bind_error hread
  | some x =>
    rw [hvalue] at hread
    exact run_bind_ok hread

/-- What is not finite is written as null, and no number is. -/
theorem binary64_null :
    binary64.Gives "null".toList (.error (.mismatch (.wrongType .null "f64".toList))) := by
  intro v _
  rw [binary64]
  refine (run_peek (c := 'n') rfl _).trans ?_
  exact (run_peek (c := 'n') rfl _).trans (run_bind_ok (word_append _ v))

end Reader

end LegacyGradient.Json
