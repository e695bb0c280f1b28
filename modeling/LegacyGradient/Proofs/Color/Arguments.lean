/-
  LegacyGradient.Proofs.Color.Arguments

  Color functions with any number of arguments. The scan takes one argument after the other, each
  with the separator behind it: a number cannot be cut in two, nor two numbers be taken for one,
  since a separator is never empty. So what is matched depends on the number of arguments alone:
  with three or four the whole function, and otherwise nothing, also not as a color of another kind
  (`function_arity`).
-/
import LegacyGradient.Proofs.Gradient.Stops

namespace LegacyGradient

open Number (isNumeric)
open Text (Outside)

/-! ## Written color functions -/

/-- What stands between two arguments of a color function: blanks and at most one comma. -/
structure Separator where
  /-- The text of the separator. -/
  text : Text
  /-- The arguments do not touch. -/
  ne_nil : text ≠ []
  /-- There are blanks and commas only. -/
  blank_or_comma : ∀ c ∈ text, Text.isGap c = true ∨ c = ','
  /-- There is one comma at most. -/
  count_comma_le : text.count ',' ≤ 1

/-- An argument of a color function: a number, which may be a percentage. -/
structure WrittenArgument where
  /-- The number. -/
  number : Text
  /-- The number is one as a whole. -/
  number_scan : Number.lexeme number = some (number, [])
  /-- There is a percent sign. -/
  percent : Bool

namespace WrittenArgument

/-- The text of the percent sign. -/
def sign (a : WrittenArgument) : Text := if a.percent then ['%'] else []

/-- The text of an argument. -/
def text (a : WrittenArgument) : Text := a.number ++ a.sign

end WrittenArgument

/-- The arguments of a color function. -/
inductive WrittenArguments where
  /-- No arguments. -/
  | none
  /-- Arguments with the separator behind each, and a last one. -/
  | list (front : List (WrittenArgument × Separator)) (last : WrittenArgument)

namespace WrittenArguments

/-- The number of arguments. -/
def count : WrittenArguments → Nat
  | none => 0
  | list front _ => front.length + 1

/-- The text of the arguments. -/
def text : WrittenArguments → Text
  | none => []
  | list front last => front.flatMap (fun (a, s) => a.text ++ s.text) ++ last.text

end WrittenArguments

/-- A color function, with any number of arguments. -/
structure WrittenFunction where
  /-- The name of the function. -/
  name : Text
  /-- The name is one of those known. -/
  name_mem : name ∈ Color.functionNames
  /-- The blanks after the opening parenthesis. -/
  before : Gap
  /-- The arguments. -/
  arguments : WrittenArguments
  /-- The blanks before the closing parenthesis. -/
  after : Gap

/-- The text of a color function. -/
def WrittenFunction.text (w : WrittenFunction) : Text :=
  w.name ++ '(' :: (w.before.text ++ w.arguments.text ++ w.after.text) ++ [')']

/-! ## Where arguments and separators end -/

/-- The characters of arguments. -/
def isFigure (c : Char) : Bool := isNumeric c || c == '%'

/-- The characters of separators. -/
def isSeparating (c : Char) : Bool := Text.isGap c || c == ','

theorem isBlank_of_isFigure {c : Char} (h : isFigure c = true) : Text.isBlank c = false := by
  simp only [isFigure, Bool.or_eq_true, beq_iff_eq] at h
  rcases h with h | rfl
  · exact Text.isBlank_of_isNumeric h
  · rfl

theorem isSeparating_of_isFigure {c : Char} (h : isFigure c = true) : isSeparating c = false := by
  have hgap := Text.isGap_eq_false (isBlank_of_isFigure h)
  rw [isSeparating, hgap, Bool.false_or, beq_eq_false_iff_ne]
  rintro rfl
  exact absurd h (by decide)

theorem outside_isGap {v : Text} (hv : Outside isSeparating v) : Outside Text.isGap v :=
  hv.mono (by simp +contextual [isSeparating])

namespace Separator

/-- Blanks, or blanks around a comma. -/
theorem text_cases (s : Separator) :
    (∃ g : Gap, s.text = g.text) ∨ ∃ g g' : Gap, s.text = g.text ++ ',' :: g'.text := by
  have hgap : ∀ {t : Text}, t ⊆ s.text → ',' ∉ t → ∀ c ∈ t, Text.isGap c = true := by
    intro t hsub hcomma c hc
    refine (s.blank_or_comma c (hsub hc)).resolve_right ?_
    rintro rfl
    exact hcomma hc
  by_cases hcomma : ',' ∈ s.text
  · obtain ⟨g, g', hs, hfront⟩ := List.eq_append_cons_of_mem hcomma
    have hback : ',' ∉ g' := by
      have hcount := s.count_comma_le
      rw [hs, List.count_append, List.count_cons_self] at hcount
      exact List.count_eq_zero.1 (by omega)
    exact .inr ⟨⟨g, hgap (by simp [hs]) hfront⟩, ⟨g', hgap (by simp [hs]) hback⟩, hs⟩
  · exact .inl ⟨⟨s.text, hgap (List.Subset.refl _) hcomma⟩, rfl⟩

/-- No argument goes on in a separator. -/
theorem outside_isFigure (s : Separator) (v : Text) : Outside isFigure (s.text ++ v) := by
  rw [Text.outside_append_of_ne_nil s.ne_nil]
  intro c hc
  rcases s.blank_or_comma c (List.mem_of_mem_head? hc) with hgap | rfl
  · refine Bool.eq_false_iff.2 fun hfigure => ?_
    rw [Text.isGap_eq_false (isBlank_of_isFigure hfigure)] at hgap
    contradiction
  · rfl

end Separator

namespace WrittenArgument

variable (a : WrittenArgument)

theorem number_form : a.number ≠ [] ∧ ∀ c ∈ a.number, isNumeric c = true :=
  ⟨Number.lexeme_ne_nil a.number_scan, Number.lexeme_over _ _ _ a.number_scan⟩

/-- No separator begins where an argument does. -/
theorem outside_isSeparating (v : Text) : Outside isSeparating (a.text ++ v) := by
  obtain ⟨hne, hover⟩ := a.number_form
  rw [text, List.append_assoc, Text.outside_append_of_ne_nil hne]
  intro c hc
  apply isSeparating_of_isFigure
  rw [isFigure, hover c (List.mem_of_mem_head? hc), Bool.true_or]

/-- The number ends at the percent sign, or at what follows the argument. -/
theorem outside_isNumeric {v : Text} (hv : Outside isFigure v) :
    Outside isNumeric (a.sign ++ v) := by
  rw [sign]
  split
  · exact Text.outside_cons.2 rfl
  · exact hv.mono (by simp +contextual [isFigure])

theorem sign_scan {v : Text} (hv : Outside isFigure v) :
    (Lexeme.char '%').optional (a.sign ++ v) = some (a.sign, v) := by
  rw [sign]
  split
  · exact Lexeme.optional_of_some Lexeme.char_cons_self
  · exact Lexeme.optional_of_none (Lexeme.char_eq_none (hv.mono (by simp +contextual [isFigure])))

end WrittenArgument

namespace Color

/-! ## One argument -/

variable {name t v : Text} {ps : List Text}

/-- The blanks in front of an argument and the argument itself. -/
theorem argument_front (g : Gap) (a : WrittenArgument) (hv : Outside isFigure v) :
    (Lexeme.gap ++ Number.lexeme ++ (Lexeme.char '%').optional) (g.text ++ (a.text ++ v)) =
      some (g.text ++ a.text, v) := by
  have hnumeral := Number.lexeme_self_iff.1 a.number_scan
  have hblanks := g.scan (outside_isGap (a.outside_isSeparating v))
  rw [WrittenArgument.text, List.append_assoc] at hblanks ⊢
  have hnumber := Lexeme.append_scan hblanks (hnumeral.lexeme_append (a.outside_isNumeric hv))
  rw [← List.append_assoc g.text a.number a.sign]
  exact Lexeme.append_scan hnumber (a.sign_scan hv)

/-- An argument is matched with the blanks around it where no comma follows. -/
theorem argument_before_gap (g : Gap) (a : WrittenArgument) (g' : Gap)
    (hfigure : Outside isFigure (g'.text ++ v)) (hv : Outside isSeparating v) :
    argument (g.text ++ a.text ++ g'.text ++ v) = some (g.text ++ a.text ++ g'.text, v) := by
  have hgap := outside_isGap hv
  have hcomma : Outside (· == ',') v := hv.mono (by simp +contextual [isSeparating])
  have hfront := argument_front g a hfigure
  have hblanks := Lexeme.append_scan hfront (g'.scan hgap)
  have hnone := Lexeme.append_scan hblanks (Lexeme.optional_of_none (Lexeme.char_eq_none hcomma))
  have hall := Lexeme.append_scan hnone (Gap.none.scan hgap)
  rw [List.append_assoc, List.append_assoc]
  simpa [argument, Gap.none] using hall

/-- An argument is matched with the comma behind it and the blanks around both. -/
theorem argument_before_comma (g : Gap) (a : WrittenArgument) (g' g'' : Gap)
    (hfigure : Outside isFigure (g'.text ++ ',' :: (g''.text ++ v))) (hv : Outside isSeparating v) :
    argument (g.text ++ a.text ++ (g'.text ++ ',' :: g''.text) ++ v) =
      some (g.text ++ a.text ++ (g'.text ++ ',' :: g''.text), v) := by
  have hfront := argument_front g a hfigure
  have hblanks := Lexeme.append_scan hfront (g'.scan (Text.outside_cons.2 rfl))
  have hcomma := Lexeme.append_scan hblanks (Lexeme.optional_of_some Lexeme.char_cons_self)
  have hall := Lexeme.append_scan hcomma (g''.scan (outside_isGap hv))
  simpa [argument] using hall

/-- An argument is matched with its separator in front of the next argument. -/
theorem argument_before_separator (g : Gap) (a : WrittenArgument) (s : Separator)
    (hv : Outside isSeparating v) :
    argument (g.text ++ a.text ++ s.text ++ v) = some (g.text ++ a.text ++ s.text, v) := by
  have hfigure := s.outside_isFigure v
  rcases s.text_cases with ⟨g', hs⟩ | ⟨g', g'', hs⟩
  · rw [hs] at hfigure ⊢
    exact argument_before_gap g a g' hfigure hv
  · rw [hs] at hfigure ⊢
    rw [List.append_assoc, List.cons_append] at hfigure
    exact argument_before_comma g a g' g'' hfigure hv

/-- Before the closing parenthesis there is no argument. -/
theorem argument_closing (g : Gap) (t : Text) : argument (g.text ++ ')' :: t) = none := by
  have hgap := g.scan (v := ')' :: t) (Text.outside_cons.2 rfl)
  have hnumber : Number.lexeme (')' :: t) = none := Number.lexeme_eq_none (Text.outside_cons.2 rfl)
  have hfront := Lexeme.append_eq_none_right hgap hnumber
  exact Lexeme.append_eq_none_left (Lexeme.append_eq_none_left (Lexeme.append_eq_none_left
    (Lexeme.append_eq_none_left hfront)))

/-! ## A number of arguments -/

/-- The texts are matched as arguments one after the other, in front of `v`. -/
def ScannedInTurn : List Text → Text → Prop
  | [], _ => True
  | p :: ps, v =>
    argument (p ++ (ps.flatten ++ v)) = some (p, ps.flatten ++ v) ∧ ScannedInTurn ps v

theorem ScannedInTurn.getElem (h : ScannedInTurn ps v) {k : Nat} (hk : k < ps.length) :
    argument ((ps.drop k).flatten ++ v) = some (ps[k], (ps.drop (k + 1)).flatten ++ v) := by
  induction ps generalizing k with
  | nil => exact absurd hk (Nat.not_lt_zero k)
  | cons p ps ih =>
    cases k with
    | zero =>
      rw [List.drop_zero, List.flatten_cons, List.append_assoc]
      exact h.1
    | succ k => exact ih h.2 (Nat.lt_of_succ_lt_succ hk)

/-- The name of a color function, its parenthesis, and a number of arguments. -/
def called : Nat → Lexeme
  | 0 => .oneOf functionNames ++ .char '('
  | k + 1 => called k ++ argument

theorem function_eq : function = called 3 ++ argument.optional ++ .char ')' := rfl

theorem called_zero (h : name ∈ functionNames) (v : Text) :
    called 0 (name ++ '(' :: v) = some (name ++ ['('], v) := by
  have hhalts : (Lexeme.oneOf functionNames).HaltsAt '(' := .oneOf (by decide)
  have hname : ∀ name ∈ functionNames,
      Lexeme.oneOf functionNames (name ++ ['(']) = some (name, ['(']) := by decide
  exact Lexeme.append_scan (hhalts.scan (hname name h) v) Lexeme.char_cons_self

/-- As many arguments as there are can be matched, and no more. -/
theorem called_eq (hname : name ∈ functionNames) (hps : ScannedInTurn ps v) (hv : argument v = none)
    (k : Nat) :
    called k (name ++ '(' :: (ps.flatten ++ v)) =
      if k ≤ ps.length then
        some (name ++ '(' :: (ps.take k).flatten, (ps.drop k).flatten ++ v)
      else none := by
  induction k with
  | zero => exact called_zero hname _
  | succ k ih =>
    rcases Nat.lt_trichotomy k ps.length with hlt | rfl | hgt
    · rw [if_pos (Nat.le_of_lt hlt)] at ih
      have hnext := Lexeme.append_scan ih (hps.getElem hlt)
      rw [if_pos (Nat.succ_le_of_lt hlt), List.take_succ_eq_append_getElem hlt, List.flatten_append]
      simpa [called] using hnext
    · -- all arguments are matched
      rw [if_pos (Nat.le_refl _), List.drop_length, List.flatten_nil, List.nil_append] at ih
      rw [if_neg (Nat.not_succ_le_self _)]
      exact Lexeme.append_eq_none_right ih hv
    · rw [if_neg (Nat.not_le_of_lt hgt)] at ih
      rw [if_neg (by omega)]
      exact Lexeme.append_eq_none_left ih

/-- With less than three arguments there is no color function. -/
theorem function_of_few (hname : name ∈ functionNames) (hps : ScannedInTurn ps v)
    (hv : argument v = none) (h : ps.length < 3) :
    function (name ++ '(' :: (ps.flatten ++ v)) = none := by
  have hcalled := called_eq hname hps hv 3
  rw [if_neg (Nat.not_le_of_lt h)] at hcalled
  rw [function_eq]
  exact Lexeme.append_eq_none_left (Lexeme.append_eq_none_left hcalled)

/-- With three or four arguments the function is matched up to its closing parenthesis. -/
theorem function_of_three_or_four (hname : name ∈ functionNames) (hps : ScannedInTurn ps (')' :: t))
    (h : ps.length = 3 ∨ ps.length = 4) :
    function (name ++ '(' :: (ps.flatten ++ ')' :: t)) =
      some (name ++ '(' :: ps.flatten ++ [')'], t) := by
  have hclosing := argument_closing .none t
  have hcalled := called_eq hname hps hclosing 3
  rw [if_pos (by omega)] at hcalled
  have hoptional : (called 3 ++ argument.optional) (name ++ '(' :: (ps.flatten ++ ')' :: t)) =
      some (name ++ '(' :: ps.flatten, ')' :: t) := by
    rcases h with h | h
    · rw [← h, List.take_length, List.drop_length, List.flatten_nil, List.nil_append, h] at hcalled
      have hall := Lexeme.append_scan hcalled (Lexeme.optional_of_none hclosing)
      rwa [List.append_nil] at hall
    · have hrest : (ps.drop 4).flatten = [] := by
        rw [List.drop_eq_nil_of_le (Nat.le_of_eq h), List.flatten_nil]
      have hall : ps.take 3 ++ [ps[3]] = ps := by
        rw [← List.take_succ_eq_append_getElem, List.take_of_length_le (Nat.le_of_eq h)]
      have hlast := hps.getElem (k := 3) (by omega)
      rw [hrest, List.nil_append] at hlast
      have hfour := Lexeme.append_scan hcalled (Lexeme.optional_of_some hlast)
      have hflatten := congrArg List.flatten hall
      rw [List.flatten_append, List.flatten_singleton] at hflatten
      rwa [List.append_assoc, List.cons_append, hflatten] at hfour
  rw [function_eq]
  exact Lexeme.append_scan hoptional Lexeme.char_cons_self

/-- With more than four arguments the closing parenthesis does not come where it has to. -/
theorem function_of_many (hname : name ∈ functionNames) (hps : ScannedInTurn ps (')' :: t))
    (h : 4 < ps.length) : function (name ++ '(' :: (ps.flatten ++ ')' :: t)) = none := by
  have hclosing := argument_closing .none t
  have hcalled := called_eq hname hps hclosing 3
  rw [if_pos (by omega)] at hcalled
  have hfourth := Lexeme.optional_of_some (hps.getElem (k := 3) (by omega))
  have hfifth := hps.getElem (k := 4) h
  have houtside : Outside (· == ')') ((ps.drop 4).flatten ++ ')' :: t) := by
    cases hrest : (ps.drop 4).flatten ++ ')' :: t with
    | nil => exact Text.outside_nil
    | cons c rest =>
      refine Text.outside_cons.2 (beq_eq_false_iff_ne.2 ?_)
      rintro rfl
      -- the fifth argument would begin with the parenthesis
      rw [hrest] at hfifth
      have hnone : argument (')' :: rest) = none := argument_closing .none rest
      rw [hnone] at hfifth
      contradiction
  rw [function_eq]
  have hfour := Lexeme.append_scan hcalled hfourth
  exact Lexeme.append_eq_none_right hfour (Lexeme.char_eq_none houtside)

/-- Whether a function is matched depends on the number of its arguments alone. -/
theorem function_scannedInTurn (hname : name ∈ functionNames) (hps : ScannedInTurn ps (')' :: t)) :
    function (name ++ '(' :: (ps.flatten ++ ')' :: t)) =
      if ps.length = 3 ∨ ps.length = 4 then some (name ++ '(' :: ps.flatten ++ [')'], t)
      else none := by
  split
  case isTrue h => exact function_of_three_or_four hname hps h
  case isFalse h =>
    rcases Nat.lt_or_ge ps.length 3 with hfew | hmany
    · exact function_of_few hname hps (argument_closing .none t) hfew
    · exact function_of_many hname hps (by omega)

/-! ## Written functions -/

/-- The arguments with the separators behind them, the first with the blanks before it and the last
with those after it. -/
def pieces (before after : Gap) : List (WrittenArgument × Separator) → WrittenArgument → List Text
  | [], last => [before.text ++ last.text ++ after.text]
  | (a, s) :: front, last => (before.text ++ a.text ++ s.text) :: pieces .none after front last

variable (before after : Gap) (front : List (WrittenArgument × Separator)) (last : WrittenArgument)

theorem length_pieces : (pieces before after front last).length = front.length + 1 := by
  induction front generalizing before with
  | nil => rfl
  | cons item front ih => exact congrArg Nat.succ (ih .none)

theorem flatten_pieces :
    (pieces before after front last).flatten =
      before.text ++ (WrittenArguments.list front last).text ++ after.text := by
  induction front generalizing before with
  | nil => simp [pieces, WrittenArguments.text]
  | cons item front ih =>
    rw [pieces, List.flatten_cons, ih]
    simp [WrittenArguments.text, Gap.none]

/-- No separator goes on in the arguments behind it. -/
theorem outside_isSeparating_pieces (t : Text) :
    Outside isSeparating ((pieces .none after front last).flatten ++ t) := by
  cases front with
  | nil =>
    have hlast := last.outside_isSeparating (after.text ++ t)
    simpa [pieces, Gap.none] using hlast
  | cons item front =>
    let rest : Text := (pieces .none after front last).flatten ++ t
    have hfirst := item.1.outside_isSeparating (item.2.text ++ rest)
    simpa [pieces, Gap.none, rest] using hfirst

/-- The pieces are what the scan takes for arguments. -/
theorem scannedInTurn_pieces (t : Text) :
    ScannedInTurn (pieces before after front last) (')' :: t) := by
  have hparen : Outside isSeparating (')' :: t) := Text.outside_cons.2 rfl
  induction front generalizing before with
  | nil =>
    have hfigure : Outside isFigure (after.text ++ ')' :: t) :=
      (after.outside fun c hc => isBlank_of_isFigure hc).append (Text.outside_cons.2 rfl)
    exact ⟨argument_before_gap before last after hfigure hparen, trivial⟩
  | cons item front ih =>
    exact ⟨argument_before_separator before item.1 item.2
      (outside_isSeparating_pieces after front last _), ih .none⟩

theorem function_written (w : WrittenFunction) (t : Text) :
    function (w.text ++ t) =
      if w.arguments.count = 3 ∨ w.arguments.count = 4 then some (w.text, t) else none := by
  obtain ⟨name, hname, before, arguments, after⟩ := w
  cases arguments with
  | none =>
    have hblanks := argument_closing (before.append after) t
    have hnone : ScannedInTurn [] ((before.append after).text ++ ')' :: t) := trivial
    have hfunction := function_of_few hname hnone hblanks (Nat.succ_pos 2)
    simpa [WrittenFunction.text, WrittenArguments.text, WrittenArguments.count, Gap.append]
      using hfunction
  | list front last =>
    have hfunction := function_scannedInTurn hname (scannedInTurn_pieces before after front last t)
    rw [length_pieces, flatten_pieces] at hfunction
    simpa [WrittenFunction.text, WrittenArguments.count] using hfunction

/-- What is written as a color function is no color of another kind. -/
theorem lexeme_written (w : WrittenFunction) (t : Text) :
    lexeme (w.text ++ t) = function (w.text ++ t) := by
  obtain ⟨hne, hlower⟩ := functionNames_form w.name w.name_mem
  let v : Text := w.before.text ++ w.arguments.text ++ w.after.text ++ ')' :: t
  have hsplit : w.text ++ t = w.name ++ '(' :: v := by simp [WrittenFunction.text, v]
  have hhex : hex (w.name ++ '(' :: v) = none :=
    hex_eq_none (outside_hash_of_isLower hne hlower _)
  have hkeyword : keyword (w.name ++ '(' :: v) = none :=
    keyword_eq_none_of_function w.name_mem (Text.outside_cons.2 rfl)
  rw [hsplit]
  cases hfunction : function (w.name ++ '(' :: v) with
  | none =>
    have hothers := Lexeme.orElse_eq_none_iff.2 ⟨hhex, hkeyword⟩
    exact Lexeme.orElse_eq_none_iff.2 ⟨hfunction, hothers⟩
  | some found => exact Lexeme.orElse_eq_some_iff.2 (.inl hfunction)

/-- A color function is matched up to its closing parenthesis if it has three or four arguments, and
otherwise not at all, neither as a color function nor as a color of another kind. -/
theorem function_arity (w : WrittenFunction) (t : Text) :
    function (w.text ++ t) =
        (if w.arguments.count = 3 ∨ w.arguments.count = 4 then some (w.text, t) else none) ∧
      lexeme (w.text ++ t) =
        (if w.arguments.count = 3 ∨ w.arguments.count = 4 then some (w.text, t) else none) := by
  refine ⟨function_written w t, ?_⟩
  rw [lexeme_written, function_written]

example :
    lexeme "hsla(\n-1,.5% 2\t,3 )4".toList = some ("hsla(\n-1,.5% 2\t,3 )".toList, ['4']) := by
  decide

end Color

end LegacyGradient
