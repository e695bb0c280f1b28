/-
  LegacyGradient.Proofs.Token.Color

  Colors in a list of color stops. A color function ends with its parenthesis, whatever follows it,
  while a color in digits and a keyword end where their characters end. So the scan of a color
  depends on the text behind it only through the first character there (`lexeme_append`).
-/
import LegacyGradient.Proofs.Text.Classes
import LegacyGradient.Proofs.Text.Cut
import LegacyGradient.Proofs.Text.Trim

namespace LegacyGradient.Color

open Number (isNumeric)
open Text (Outside)

variable {t v m rest : Text}

/-! ## Color functions -/

/-- The characters of the arguments of a color function. -/
def isArgumentChar (c : Char) : Bool := isNumeric c || c == '%' || c == ',' || Text.isGap c

theorem argument_over : argument.Over isArgumentChar := by
  have hnumber : Number.lexeme.Over isArgumentChar := fun t m rest h c hc => by
    simp [isArgumentChar, Number.lexeme_over t m rest h c hc]
  have hgap : Lexeme.gap.Over isArgumentChar := .run (by simp +contextual [isArgumentChar])
  exact ((((hgap.append hnumber).append (Lexeme.Over.char rfl).optional).append hgap).append
    (Lexeme.Over.char rfl).optional).append hgap

theorem argument_haltsAt : argument.HaltsAt ')' := by
  have hgap : Lexeme.gap.HaltsAt ')' := .run rfl
  have hnumber : Number.lexeme.HaltsAt ')' := Number.lexeme_haltsAt rfl
  exact ((((hgap.append hnumber).append (Lexeme.HaltsAt.char (by decide)).optional).append
    hgap).append (Lexeme.HaltsAt.char (by decide)).optional).append hgap

theorem functionNames_form : ∀ name ∈ functionNames, name ≠ [] ∧ ∀ c ∈ name, c.isLower = true := by
  have h : functionNames.all (fun name => !name.isEmpty && name.all Char.isLower) = true := by
    decide
  simpa [List.all_eq_true] using h

/-- The parts of a color function. -/
theorem function_form (h : function t = some (m, rest)) :
    ∃ name ∈ functionNames, ∃ inner : Text,
      m = name ++ '(' :: (inner ++ [')']) ∧ ∀ c ∈ inner, isArgumentChar c = true := by
  obtain ⟨m₅, close, r₅, h₅, hclose, rfl⟩ := Lexeme.append_eq_some_iff.1 h
  obtain ⟨m₄, a₄, r₄, h₄, ha₄, rfl⟩ := Lexeme.append_eq_some_iff.1 h₅
  obtain ⟨m₃, a₃, r₃, h₃, ha₃, rfl⟩ := Lexeme.append_eq_some_iff.1 h₄
  obtain ⟨m₂, a₂, r₂, h₂, ha₂, rfl⟩ := Lexeme.append_eq_some_iff.1 h₃
  obtain ⟨m₁, a₁, r₁, h₁, ha₁, rfl⟩ := Lexeme.append_eq_some_iff.1 h₂
  obtain ⟨name, opening, r₀, hname, hopening, rfl⟩ := Lexeme.append_eq_some_iff.1 h₁
  obtain ⟨rfl, -⟩ := Lexeme.char_eq_some_iff.1 hopening
  obtain ⟨rfl, -⟩ := Lexeme.char_eq_some_iff.1 hclose
  refine ⟨name, (Lexeme.mem_of_oneOf hname).1, a₁ ++ a₂ ++ a₃ ++ a₄, by simp, fun c hc => ?_⟩
  simp only [List.mem_append] at hc
  rcases hc with ((hc | hc) | hc) | hc
  · exact argument_over _ _ _ ha₁ c hc
  · exact argument_over _ _ _ ha₂ c hc
  · exact argument_over _ _ _ ha₃ c hc
  · exact argument_over.optional _ _ _ ha₄ c hc

/-- A color function is found again in front of any text. -/
theorem function_append (h : function t = some (m, rest)) (v : Text) :
    function (m ++ v) = some (m, v) := by
  obtain ⟨inner, close, r, hinner, hclose, rfl⟩ := Lexeme.append_eq_some_iff.1 h
  obtain ⟨rfl, rfl⟩ := Lexeme.char_eq_some_iff.1 hclose
  have hnames : (Lexeme.oneOf functionNames).HaltsAt ')' := .oneOf (by decide)
  have hopen := hnames.append (Lexeme.HaltsAt.char (c := '(') (by decide))
  have hargs := ((hopen.append argument_haltsAt).append argument_haltsAt).append argument_haltsAt
  have hhalts := hargs.append argument_haltsAt.optional
  rw [List.append_assoc]
  exact Lexeme.append_scan (hhalts.scan hinner v) Lexeme.char_cons_self

/-- A text in which a color function is found has the function's name as its first word. -/
theorem takeWhile_isLower_of_function (h : function t = some (m, rest)) :
    t.takeWhile Char.isLower ∈ functionNames := by
  obtain ⟨name, hname, inner, rfl, -⟩ := function_form h
  rw [← function.append_of_scan h, List.append_assoc]
  have hlower := (functionNames_form name hname).2
  have hparen : Outside Char.isLower ('(' :: (inner ++ [')']) ++ rest) := Text.outside_cons.2 rfl
  rwa [Text.takeWhile_append_outside hlower hparen]

/-! ## Digits and keywords -/

theorem isHexDigit_of_isDigit {c : Char} (h : c.isDigit = true) : isHexDigit c = true := by
  simp [isHexDigit, Text.hexDigitValue?, h]

theorem hex_form (h : hex t = some (m, rest)) :
    ∃ digits : Text, m = '#' :: digits ∧ ∀ c ∈ digits, isHexDigit c = true := by
  obtain ⟨s, digits, r, hs, hdigits, rfl⟩ := Lexeme.append_eq_some_iff.1 h
  obtain ⟨rfl, rfl⟩ := Lexeme.char_eq_some_iff.1 hs
  exact ⟨digits, rfl, (Lexeme.run1_eq_some_iff.1 (Lexeme.such_eq_some_iff.1 hdigits).1).2.1⟩

/-- A color in digits ends where its digits end. -/
theorem hex_rest (h : hex t = some (m, rest)) : Outside isHexDigit rest := by
  obtain ⟨s, digits, r, -, hdigits, rfl⟩ := Lexeme.append_eq_some_iff.1 h
  exact (Lexeme.run1_eq_some_iff.1 (Lexeme.such_eq_some_iff.1 hdigits).1).2.2.1

theorem hex_append (h : hex t = some (m, rest)) (hv : Outside isHexDigit v) :
    hex (m ++ v) = some (m, v) := by
  obtain ⟨s, digits, r, hs, hdigits, rfl⟩ := Lexeme.append_eq_some_iff.1 h
  obtain ⟨rfl, rfl⟩ := Lexeme.char_eq_some_iff.1 hs
  obtain ⟨hrun, hlength⟩ := Lexeme.such_eq_some_iff.1 hdigits
  obtain ⟨-, hall, -, hne⟩ := Lexeme.run1_eq_some_iff.1 hrun
  rw [List.append_assoc]
  refine Lexeme.append_scan Lexeme.char_cons_self (Lexeme.such_eq_some_iff.2 ⟨?_, hlength⟩)
  exact Lexeme.run1_eq_some_iff.2 ⟨rfl, hall, hv, hne⟩

theorem keyword_form (h : keyword t = some (m, rest)) : m ≠ [] ∧ ∀ c ∈ m, c.isLower = true := by
  obtain ⟨-, hall, -, hne⟩ := Lexeme.run1_eq_some_iff.1 (Lexeme.such_eq_some_iff.1 h).1
  exact ⟨hne, hall⟩

theorem keyword_append (h : keyword t = some (m, rest)) (hv : Outside Char.isLower v) :
    keyword (m ++ v) = some (m, v) := by
  obtain ⟨hne, hall⟩ := keyword_form h
  exact Lexeme.such_eq_some_iff.2
    ⟨Lexeme.run1_eq_some_iff.2 ⟨rfl, hall, hv, hne⟩, (Lexeme.such_eq_some_iff.1 h).2⟩

/-- The name of a color function is too short for a keyword, and no short keyword. -/
theorem functionNames_not_keyword : ∀ name ∈ functionNames,
    (shortNames.contains name || (5 ≤ name.length && name.length ≤ 20)) = false := by
  decide

theorem function_eq_none_of_keyword (h : keyword t = some (m, rest)) (hv : Outside Char.isLower v) :
    function (m ++ v) = none := by
  have hname := (Lexeme.such_eq_some_iff.1 h).2
  refine Option.eq_none_iff_forall_ne_some.2 fun found hfound => ?_
  have hmem := takeWhile_isLower_of_function hfound
  rw [Text.takeWhile_append_outside (keyword_form h).2 hv] at hmem
  rw [functionNames_not_keyword m hmem] at hname
  contradiction

/-- The name of a color function is not a color of its own. -/
theorem keyword_eq_none_of_function {name : Text} (hname : name ∈ functionNames)
    (hv : Outside Char.isLower v) : keyword (name ++ v) = none := by
  refine Option.eq_none_iff_forall_ne_some.2 fun (m, rest) hfound => ?_
  obtain ⟨hrun, hword⟩ := Lexeme.such_eq_some_iff.1 hfound
  obtain ⟨hsplit, hall, hrest, -⟩ := Lexeme.run1_eq_some_iff.1 hrun
  have hm : m = name := by
    have hwords := congrArg (List.takeWhile Char.isLower) hsplit
    rw [Text.takeWhile_append_outside (functionNames_form name hname).2 hv,
      Text.takeWhile_append_outside hall hrest] at hwords
    exact hwords.symm
  rw [hm, functionNames_not_keyword name hname] at hword
  contradiction

theorem function_eq_none_of_hash : function ('#' :: t) = none := by
  refine Option.eq_none_iff_forall_ne_some.2 fun found hfound => ?_
  have hmem := takeWhile_isLower_of_function hfound
  rw [Text.takeWhile_outside (Text.outside_cons.2 rfl)] at hmem
  exact absurd hmem (by decide)

theorem hex_eq_none (h : Outside (· == '#') t) : hex t = none :=
  Lexeme.append_eq_none_left (Lexeme.char_eq_none h)

/-- A word does not begin like a color in digits. -/
theorem outside_hash_of_isLower (hne : m ≠ []) (h : ∀ c ∈ m, c.isLower = true) (v : Text) :
    Outside (· == '#') (m ++ v) := by
  rw [Text.outside_append_of_ne_nil hne]
  intro c hc
  refine beq_eq_false_iff_ne.2 ?_
  rintro rfl
  exact absurd (h '#' (List.mem_of_mem_head? hc)) (by decide)

/-! ## Colors -/

/-- A color has one of three forms. -/
theorem lexeme_cases (h : lexeme t = some (m, rest)) :
    function t = some (m, rest) ∨ hex t = some (m, rest) ∨ keyword t = some (m, rest) := by
  rcases Lexeme.orElse_eq_some_iff.1 h with h | ⟨-, h⟩
  · exact .inl h
  · rcases Lexeme.orElse_eq_some_iff.1 h with h | ⟨-, h⟩
    · exact .inr (.inl h)
    · exact .inr (.inr h)

/-- A color is found again in front of a text that begins with no character to prolong it. -/
theorem lexeme_append (h : lexeme t = some (m, rest)) (hlower : Outside Char.isLower v)
    (hhex : m.head? = some '#' → Outside isHexDigit v) : lexeme (m ++ v) = some (m, v) := by
  rcases lexeme_cases h with h | h | h
  · exact Lexeme.orElse_eq_some_iff.2 (.inl (function_append h v))
  · obtain ⟨s, digits, r, hs, -, rfl⟩ := Lexeme.append_eq_some_iff.1 h
    obtain ⟨rfl, -⟩ := Lexeme.char_eq_some_iff.1 hs
    refine Lexeme.orElse_eq_some_iff.2 (.inr ⟨function_eq_none_of_hash, ?_⟩)
    exact Lexeme.orElse_eq_some_iff.2 (.inl (hex_append h (hhex rfl)))
  · refine Lexeme.orElse_eq_some_iff.2 (.inr ⟨function_eq_none_of_keyword h hlower, ?_⟩)
    obtain ⟨hne, hall⟩ := keyword_form h
    have hnone := hex_eq_none (outside_hash_of_isLower hne hall v)
    exact Lexeme.orElse_eq_some_iff.2 (.inr ⟨hnone, keyword_append h hlower⟩)

/-- A color that begins with the sign of a color in digits is one. -/
theorem hex_of_hash (h : lexeme t = some (m, rest)) (hhash : m.head? = some '#') :
    hex t = some (m, rest) := by
  rcases lexeme_cases h with h | h | h
  · obtain ⟨name, hname, inner, rfl, -⟩ := function_form h
    obtain ⟨hne, hlower⟩ := functionNames_form name hname
    have hword := outside_hash_of_isLower hne hlower ('(' :: (inner ++ [')']))
    exact absurd (hword '#' hhash) (by decide)
  · exact h
  · obtain ⟨hne, hlower⟩ := keyword_form h
    have hword := outside_hash_of_isLower hne hlower []
    rw [List.append_nil] at hword
    exact absurd (hword '#' hhash) (by decide)

theorem head_of_isSome_hex (h : (hex m).isSome = true) : m.head? = some '#' := by
  obtain ⟨⟨n, r⟩, hs⟩ := Option.isSome_iff_exists.1 h
  obtain ⟨digits, rfl, -⟩ := hex_form hs
  rw [← hex.append_of_scan hs]
  rfl

/-- A color begins with a letter or with the sign of a color in digits. -/
theorem lexeme_head (h : lexeme t = some (m, rest)) :
    ∃ c m', m = c :: m' ∧ (c.isLower = true ∨ c = '#') := by
  rcases lexeme_cases h with h | h | h
  · obtain ⟨name, hname, inner, rfl, -⟩ := function_form h
    obtain ⟨hne, hlower⟩ := functionNames_form name hname
    obtain ⟨c, name, rfl⟩ := List.exists_cons_of_ne_nil hne
    exact ⟨c, _, rfl, .inl (hlower c (by simp))⟩
  · obtain ⟨digits, rfl, -⟩ := hex_form h
    exact ⟨'#', digits, rfl, .inr rfl⟩
  · obtain ⟨hne, hlower⟩ := keyword_form h
    obtain ⟨c, m, rfl⟩ := List.exists_cons_of_ne_nil hne
    exact ⟨c, m, rfl, .inl (hlower c (by simp))⟩

/-- No blank stands at either end of a color. -/
theorem lexeme_trimmed (h : lexeme t = some (m, rest)) : m.Trimmed := by
  rcases lexeme_cases h with h | h | h
  · obtain ⟨name, hname, inner, rfl, -⟩ := function_form h
    obtain ⟨hne, hlower⟩ := functionNames_form name hname
    have hfront : Outside Text.isBlank name := fun c hc =>
      Text.isBlank_of_isLower (hlower c (List.mem_of_mem_head? hc))
    have := Text.Trimmed.between hne hfront (t := [')']) (by simp) (Text.outside_cons.2 rfl)
      ('(' :: inner)
    simpa using this
  · obtain ⟨digits, rfl, hdigits⟩ := hex_form h
    refine Text.trimmed_of_forall fun c hc => ?_
    rcases List.mem_cons.1 hc with rfl | hc
    · rfl
    · exact Text.isBlank_of_isHexDigit (hdigits c hc)
  · exact Text.trimmed_of_forall fun c hc => Text.isBlank_of_isLower ((keyword_form h).2 c hc)

/-- A color holds commas only between its own parentheses. -/
theorem lexeme_sealed (h : lexeme t = some (m, rest)) : Text.SealedFrom 0 m := by
  rcases lexeme_cases h with h | h | h
  · obtain ⟨name, hname, inner, rfl, hinner⟩ := function_form h
    have hname' : Text.SealedFrom 0 name :=
      Text.sealedFrom_of_class rfl rfl rfl (functionNames_form name hname).2
    have hinner' : Text.SealedFrom 1 inner := by
      apply Text.sealedFrom_of_forall
      intro c hc
      refine ⟨?_, ?_, fun _ => Nat.one_pos⟩
      · rintro rfl
        exact absurd (hinner _ hc) (by decide)
      · rintro rfl
        exact absurd (hinner _ hc) (by decide)
    exact hname'.append hinner'.parens
  · obtain ⟨digits, rfl, hdigits⟩ := hex_form h
    have hsign : Text.SealedFrom 0 ['#'] := Text.sealedFrom_of_all (by decide)
    exact hsign.append (Text.sealedFrom_of_class rfl rfl rfl hdigits)
  · exact Text.sealedFrom_of_class rfl rfl rfl (keyword_form h).2

end LegacyGradient.Color
