/-
  LegacyGradient.Proofs.Token.Number

  Numbers among other tokens. A number begins with a digit, a sign or a point and holds nothing
  else, so its scan halts at every other character. The texts that are numbers as a whole are the
  numerals (`lexeme_self_iff`), and of the numerals at the front of a text the longest is taken
  (`lexeme_longest`).
-/
import LegacyGradient.Number
import LegacyGradient.Proofs.Lexeme.Barrier
import LegacyGradient.Proofs.Text.Cut

namespace LegacyGradient.Number

open Text (Outside)

variable {t v m rest : Text} {b : Char}

/-- The characters of numbers. -/
def isNumeric (c : Char) : Bool := c.isDigit || c == '-' || c == '.'

theorem isNumeric_of_isDigit {c : Char} (h : c.isDigit = true) : isNumeric c = true := by
  simp [isNumeric, h]

/-- The small letters are a range. -/
theorem between_of_isLower {c : Char} (h : c.isLower = true) : 'a' ≤ c ∧ c ≤ 'z' := by
  obtain ⟨ha, hz⟩ := Bool.and_eq_true_iff.1 h
  exact ⟨of_decide_eq_true ha, of_decide_eq_true hz⟩

/-- No small letter is part of a number. -/
theorem isNumeric_of_isLower {c : Char} (h : c.isLower = true) : isNumeric c = false := by
  replace h := between_of_isLower h
  simp only [isNumeric, Char.isDigit, Bool.or_eq_false_iff, Bool.and_eq_false_iff,
    decide_eq_false_iff_not, beq_eq_false_iff_ne]
  refine ⟨⟨.inr fun hle => ?_, ?_⟩, ?_⟩
  · exact absurd (UInt32.le_trans h.1 hle) (by decide)
  · rintro rfl
    exact absurd h (by decide)
  · rintro rfl
    exact absurd h (by decide)

theorem lexeme_over : lexeme.Over isNumeric := by
  have hdigit : ∀ c : Char, c.isDigit = true → isNumeric c = true := fun c => isNumeric_of_isDigit
  refine (Lexeme.Over.char rfl).optional.append ?_
  exact (((Lexeme.Over.run hdigit).append (.char rfl)).append (.run1 hdigit)).orElse (.run1 hdigit)

/-- A number may stand anywhere in a list with commas. -/
theorem lexeme_sealed (h : lexeme t = some (m, rest)) : Text.SealedFrom 0 m :=
  Text.sealedFrom_of_class rfl rfl rfl (lexeme_over _ _ _ h)

theorem lexeme_haltsAt (h : isNumeric b = false) : lexeme.HaltsAt b := by
  simp only [isNumeric, Bool.or_eq_false_iff, beq_eq_false_iff_ne] at h
  obtain ⟨⟨hdigit, hsign⟩, hpoint⟩ := h
  refine (Lexeme.HaltsAt.char hsign.symm).optional.append ?_
  exact (((Lexeme.HaltsAt.run hdigit).append (.char hpoint.symm)).append (.run1 hdigit)).orElse
    (.run1 hdigit)

/-- A number does not begin with any other character. -/
theorem lexeme_eq_none (h : Outside isNumeric t) : lexeme t = none := by
  have hdigit : Outside Char.isDigit t := h.mono fun _ => isNumeric_of_isDigit
  have hsign : Outside (· == '-') t := h.mono (by simp +contextual [isNumeric])
  have hpoint : Outside (· == '.') t := h.mono (by simp +contextual [isNumeric])
  have hwhole : Lexeme.run Char.isDigit t = some ([], t) :=
    Lexeme.run_eq_some_iff.2 ⟨rfl, by simp, hdigit⟩
  refine Lexeme.append_eq_none_right
    (Lexeme.optional_of_none (Lexeme.char_eq_none hsign)) (Lexeme.orElse_eq_none_iff.2 ⟨?_, ?_⟩)
  · refine Lexeme.append_eq_none_left (Lexeme.append_eq_none_right hwhole ?_)
    exact Lexeme.char_eq_none hpoint
  · exact Lexeme.run1_eq_none hdigit

/-! ## The form of a number -/

/-- An optional sign, any number of digits, an optional point, and one digit or more. -/
def IsNumeral (m : Text) : Prop :=
  ∃ sign wholes point decimals : Text, m = sign ++ (wholes ++ point ++ decimals) ∧
    (sign = [] ∨ sign = ['-']) ∧ (∀ c ∈ wholes, c.isDigit = true) ∧
    (point = [] ∨ point = ['.']) ∧ decimals ≠ [] ∧ ∀ c ∈ decimals, c.isDigit = true

theorem isNumeral_of_digits {sign ds : Text} (hsign : sign = [] ∨ sign = ['-']) (hne : ds ≠ [])
    (h : ∀ c ∈ ds, c.isDigit = true) : IsNumeral (sign ++ ds) :=
  ⟨sign, [], [], ds, rfl, hsign, by simp, .inl rfl, hne, h⟩

/-- What is matched as a number is a numeral. -/
theorem isNumeral_of_lexeme (h : lexeme t = some (m, rest)) : IsNumeral m := by
  obtain ⟨sign, n, r, hsign, hn, rfl⟩ := Lexeme.append_eq_some_iff.1 h
  have hsign' : sign = [] ∨ sign = ['-'] := by
    rcases Lexeme.optional_eq_some_iff.1 hsign with hsign | ⟨-, rfl, -⟩
    · exact .inr (Lexeme.char_eq_some_iff.1 hsign).1
    · exact .inl rfl
  rcases Lexeme.orElse_eq_some_iff.1 hn with hpointed | ⟨-, hdigits⟩
  · obtain ⟨front, decimals, r₁, hfront, hdecimals, rfl⟩ := Lexeme.append_eq_some_iff.1 hpointed
    obtain ⟨wholes, point, r₂, hwholes, hpoint, rfl⟩ := Lexeme.append_eq_some_iff.1 hfront
    obtain ⟨-, hall, -, hne⟩ := Lexeme.run1_eq_some_iff.1 hdecimals
    refine ⟨sign, wholes, point, decimals, rfl, hsign', ?_, ?_, hne, hall⟩
    · exact (Lexeme.run_eq_some_iff.1 hwholes).2.1
    · exact .inr (Lexeme.char_eq_some_iff.1 hpoint).1
  · obtain ⟨-, hall, -, hne⟩ := Lexeme.run1_eq_some_iff.1 hdigits
    exact ⟨sign, [], [], n, by simp, hsign', by simp, .inl rfl, hne, hall⟩

/-- Digits with an optional point among them are matched, perhaps with more behind them. -/
theorem exists_unsigned_append {wholes point decimals : Text}
    (hwholes : ∀ c ∈ wholes, c.isDigit = true) (hpoint : point = [] ∨ point = ['.'])
    (hne : decimals ≠ []) (hdecimals : ∀ c ∈ decimals, c.isDigit = true) (v : Text) :
    ∃ more rest, ((Lexeme.run Char.isDigit ++ Lexeme.char '.' ++ digits1) <|> digits1)
      (wholes ++ point ++ decimals ++ v) = some (wholes ++ point ++ decimals ++ more, rest) := by
  simp only [Lexeme.orElse_eq_some_iff]
  rcases hpoint with rfl | rfl
  · rw [List.append_nil]
    have hall : ∀ c ∈ wholes ++ decimals, c.isDigit = true :=
      List.forall_mem_append.2 ⟨hwholes, hdecimals⟩
    have hrun := Lexeme.run_append hall v
    cases hpointed : (Lexeme.run Char.isDigit ++ Lexeme.char '.' ++ digits1)
        (wholes ++ decimals ++ v) with
    | none =>
      have hdigits := Lexeme.run1_append hall (List.append_ne_nil_of_right_ne_nil _ hne) v
      exact ⟨_, _, .inr ⟨rfl, hdigits⟩⟩
    | some found =>
      -- a point behind the digits makes the match longer
      obtain ⟨m, rest⟩ := found
      obtain ⟨front, decimals', r, hfront, -, rfl⟩ := Lexeme.append_eq_some_iff.1 hpointed
      obtain ⟨wholes', point, r', hwholes', -, rfl⟩ := Lexeme.append_eq_some_iff.1 hfront
      obtain ⟨rfl, -⟩ := Prod.mk.inj (Option.some.inj (hrun.symm.trans hwholes'))
      exact ⟨v.takeWhile Char.isDigit ++ (point ++ decimals'), rest, .inl (by simp)⟩
  · have hrun : Lexeme.run Char.isDigit (wholes ++ '.' :: (decimals ++ v)) =
        some (wholes, '.' :: (decimals ++ v)) :=
      Lexeme.run_eq_some_iff.2 ⟨rfl, hwholes, Text.outside_cons.2 rfl⟩
    have hdigits : digits1 (decimals ++ v) = some _ := Lexeme.run1_append hdecimals hne v
    have hpointed := Lexeme.append_scan (Lexeme.append_scan hrun Lexeme.char_cons_self) hdigits
    exact ⟨v.takeWhile Char.isDigit, _, .inl (by simpa using hpointed)⟩

/-- No sign comes first where a number has no sign. -/
theorem outside_sign {wholes point decimals : Text} (hwholes : ∀ c ∈ wholes, c.isDigit = true)
    (hpoint : point = [] ∨ point = ['.']) (hne : decimals ≠ [])
    (hdecimals : ∀ c ∈ decimals, c.isDigit = true) (v : Text) :
    Outside (· == '-') (wholes ++ point ++ decimals ++ v) := by
  have hdigits : ∀ ds : Text, (∀ c ∈ ds, c.isDigit = true) → Outside (· == '-') ds := by
    intro ds hds c hc
    rw [beq_eq_false_iff_ne]
    rintro rfl
    exact absurd (hds '-' (List.mem_of_mem_head? hc)) (by decide)
  rw [List.append_assoc, List.append_assoc]
  apply (hdigits wholes hwholes).append
  rcases hpoint with rfl | rfl
  · exact (Text.outside_append_of_ne_nil hne).2 (hdigits decimals hdecimals)
  · exact Text.outside_cons.2 rfl

/-- A numeral is matched, perhaps with more behind it. -/
theorem IsNumeral.exists_lexeme_append (hm : IsNumeral m) (v : Text) :
    ∃ more rest, lexeme (m ++ v) = some (m ++ more, rest) := by
  obtain ⟨sign, wholes, point, decimals, rfl, hsign, hwholes, hpoint, hne, hdecimals⟩ := hm
  obtain ⟨more, rest, hunsigned⟩ := exists_unsigned_append hwholes hpoint hne hdecimals v
  have hsigned : (Lexeme.char '-').optional (sign ++ (wholes ++ point ++ decimals ++ v)) =
      some (sign, wholes ++ point ++ decimals ++ v) := by
    rcases hsign with rfl | rfl
    · have hfront := outside_sign hwholes hpoint hne hdecimals v
      exact Lexeme.optional_of_none (Lexeme.char_eq_none hfront)
    · exact Lexeme.optional_of_some Lexeme.char_cons_self
  refine ⟨more, rest, ?_⟩
  rw [List.append_assoc sign, List.append_assoc sign]
  exact Lexeme.append_scan hsigned hunsigned

/-- A numeral is matched as a whole in front of anything that is no part of a number. -/
theorem IsNumeral.lexeme_append (hm : IsNumeral m) (hv : Outside isNumeric v) :
    lexeme (m ++ v) = some (m, v) := by
  obtain ⟨more, rest, hscan⟩ := hm.exists_lexeme_append v
  have hmore : more ++ rest = v := by
    have := lexeme.append_of_scan hscan
    rwa [List.append_assoc, List.append_cancel_left_eq] at this
  -- what is matched behind the numeral would begin with a part of a number
  have hnil : more = [] := by
    rw [← hmore] at hv
    cases more with
    | nil => rfl
    | cons c more =>
      have hc := lexeme_over _ _ _ hscan c (by simp)
      exact absurd (hc.symm.trans (Text.outside_cons.1 hv)) (by decide)
  rw [hscan, ← hmore, hnil, List.append_nil, List.nil_append]

/-- The texts that the scan of numbers takes as a whole are the numerals. -/
theorem lexeme_self_iff : lexeme m = some (m, []) ↔ IsNumeral m := by
  constructor
  · exact isNumeral_of_lexeme
  · intro hm
    have := hm.lexeme_append (v := []) Text.outside_nil
    rwa [List.append_nil] at this

theorem lexeme_ne_nil (h : lexeme t = some (m, rest)) : m ≠ [] := by
  obtain ⟨sign, wholes, point, decimals, rfl, -, -, -, hne, -⟩ := isNumeral_of_lexeme h
  simp [hne]

/-- A zero is a number of its own before anything but further digits and a point. -/
theorem lexeme_zero (h : Outside isNumeric v) : lexeme ('0' :: v) = some (['0'], v) :=
  (isNumeral_of_digits (.inl rfl) (List.cons_ne_nil _ _)
    (List.forall_mem_singleton.2 rfl)).lexeme_append h

/-! ## The longest numeral -/

/-- No numeral at the front of a text is longer than what the scan takes of it. -/
theorem length_le_of_lexeme {m' : Text} (h : lexeme t = some (m, rest)) (hfront : m' <+: t)
    (hm' : IsNumeral m') : m'.length ≤ m.length := by
  obtain ⟨v, rfl⟩ := hfront
  obtain ⟨more, rest', hscan⟩ := hm'.exists_lexeme_append v
  obtain ⟨rfl, -⟩ := Prod.mk.inj (Option.some.inj (hscan.symm.trans h))
  simp

/-- The scan of numbers succeeds exactly on the texts that begin with a numeral, and takes the
longest numeral that the text begins with. -/
theorem lexeme_longest (t : Text) :
    ((lexeme t).isSome = true ↔ ∃ m, m <+: t ∧ IsNumeral m) ∧
      ∀ m rest, lexeme t = some (m, rest) ↔
        m ++ rest = t ∧ IsNumeral m ∧ ∀ m', m' <+: t → IsNumeral m' → m'.length ≤ m.length := by
  constructor
  · rw [Option.isSome_iff_exists]
    constructor
    · rintro ⟨⟨m, rest⟩, hscan⟩
      exact ⟨m, ⟨rest, lexeme.append_of_scan hscan⟩, isNumeral_of_lexeme hscan⟩
    · rintro ⟨m, ⟨v, rfl⟩, hm⟩
      obtain ⟨more, rest, hscan⟩ := hm.exists_lexeme_append v
      exact ⟨_, hscan⟩
  · intro m rest
    constructor
    · intro hscan
      exact ⟨lexeme.append_of_scan hscan, isNumeral_of_lexeme hscan,
        fun m' => length_le_of_lexeme hscan⟩
    · rintro ⟨rfl, hm, hmax⟩
      obtain ⟨more, rest', hscan⟩ := hm.exists_lexeme_append rest
      have happend := lexeme.append_of_scan hscan
      -- the numeral is part of what is taken, and what is taken is no longer
      have hle := hmax _ ⟨rest', happend⟩ (isNumeral_of_lexeme hscan)
      obtain ⟨hm', rfl⟩ := List.append_inj happend
        (Nat.le_antisymm hle (length_le_of_lexeme hscan (List.prefix_append m rest) hm))
      rwa [hm'] at hscan

end LegacyGradient.Number
