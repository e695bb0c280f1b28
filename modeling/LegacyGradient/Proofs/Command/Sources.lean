/-
  LegacyGradient.Proofs.Command.Sources

  The two sources of values. Behind two hyphens alone the arguments are values as they stand, and the
  arguments before them mean what they mean without these (`Arguments.ofList_append`). On the input
  the values are lines, whatever their line ends are and however many blank lines stand between them
  (`filter_lines_of_feeds`). So the same values are answered alike from either source
  (`respond_append`).
-/
import LegacyGradient.Command.Response
import LegacyGradient.Proofs.Command.Input
import LegacyGradient.Proofs.Placement.Own
import LegacyGradient.Proofs.Text.Trim

namespace LegacyGradient.Command

variable {options values : List Text} {t : Text}

/-! ## Values among the arguments -/

namespace Arguments

/-- The arguments with more values after their own. -/
def addValues (a : Arguments) (values : List Text) : Arguments :=
  { a with values := a.values ++ values }

theorem add_hyphens (a : Arguments) (values : List Text) :
    a.add (['-', '-'] :: values) = .ok (a.addValues values) := by
  rw [add, if_pos rfl]
  rfl

/-- An argument is a step by itself, whatever comes after it, or it is the name of a setting, whose
value is the next argument. -/
theorem add_cons_cases (a : Arguments) (h : t ≠ ['-', '-']) :
    (∃ step : Except Exit Arguments, ∀ rest, a.add (t :: rest) = step.bind (·.add rest)) ∨
      ∃ (s : Setting) (missing : Exit), ∀ rest, a.add (t :: rest) =
        match rest with
        | [] => .error missing
        | value :: rest =>
          if isOptional value then .error missing else (a.give s value).bind (·.add rest) := by
  simp only [add, if_neg h]
  by_cases hlong : ['-', '-'].isPrefixOf t = true
  · simp only [if_pos hlong]
    split
    · next s _ =>
      split
      · exact .inl ⟨.error _, fun rest => rfl⟩
      · exact .inl ⟨a.turnOn s, fun rest => rfl⟩
    · next s _ _ =>
      split
      · exact .inl ⟨a.give s _, fun rest => rfl⟩
      · exact .inr ⟨s, _, fun rest => by cases rest <;> rfl⟩
    · exact .inl ⟨.error _, fun rest => rfl⟩
  · simp only [if_neg hlong]
    split
    · exact .inl ⟨a.turnOnLetters (t.drop 1), fun rest => rfl⟩
    · exact .inl ⟨.ok _, fun rest => rfl⟩

/-- What stands behind two hyphens alone is added to the values. -/
theorem add_append (a : Arguments) (h : ['-', '-'] ∉ options) (values : List Text) :
    a.add (options ++ ['-', '-'] :: values) = (a.add options).map (·.addValues values) := by
  -- on the number of arguments, since a setting takes up two of them
  induction hn : options.length using Nat.strongRecOn generalizing a options with
  | _ n ih =>
    cases options with
    | nil =>
      rw [List.nil_append, add_hyphens, add]
      rfl
    | cons t rest =>
      rw [List.mem_cons, not_or] at h
      obtain ⟨ht, hrest⟩ := h
      rw [List.length_cons] at hn
      rcases add_cons_cases a (Ne.symm ht) with ⟨step, hstep⟩ | ⟨s, missing, hstep⟩
      · rw [List.cons_append, hstep, hstep]
        cases step with
        | error exit => rfl
        | ok b => exact ih rest.length (by omega) b hrest rfl
      · rw [List.cons_append, hstep, hstep]
        cases rest with
        -- two hyphens alone are no value of a setting
        | nil => rfl
        | cons value rest =>
          rw [List.mem_cons, not_or] at hrest
          rw [List.length_cons] at hn
          by_cases hoptional : isOptional value
          · simp only [List.cons_append, if_pos hoptional]
            rfl
          · simp only [List.cons_append, if_neg hoptional]
            cases a.give s value with
            | error exit => rfl
            | ok b => exact ih rest.length (by omega) b hrest.2 rfl

theorem ofList_append (h : ['-', '-'] ∉ options) (values : List Text) :
    ofList (options ++ ['-', '-'] :: values) = (ofList options).map (·.addValues values) := by
  rw [ofList, ofList, add_append {} h]
  cases ({} : Arguments).add options with
  | error exit => rfl
  | ok a =>
    -- whether options exclude each other does not depend on the values
    have hsame : ((a.addValues values).quiet ∧ 0 < (a.addValues values).verbosity) =
        (a.quiet ∧ 0 < a.verbosity) := rfl
    simp only [Except.map, bind, Except.bind, hsame]
    split <;> rfl

theorem convertAll_addValues (a : Arguments) (options : Options) (number : Nat)
    (added values : List Text) :
    (a.addValues added).convertAll options number values = a.convertAll options number values := by
  induction values generalizing number with
  | nil => rfl
  | cons value values ih =>
    rw [convertAll, convertAll, ih]
    rfl

end Arguments

/-! ## Values on lines -/

/-- The two line ends. -/
def IsLineEnd (e : Text) : Prop := e = ['\n'] ∨ e = ['\r', '\n']

/-- The lines of a text are these values, in order, and any number of blank lines. -/
inductive Feeds : List Text → Text → Prop where
  /-- No lines. -/
  | nil : Feeds [] []
  /-- A line that does not count. -/
  | blank {line e t : Text} {values : List Text} (hline : ∀ c ∈ line, Text.isBlank c = true)
      (hfeed : '\n' ∉ line) (he : IsLineEnd e) (h : Feeds values t) :
      Feeds values (line ++ e ++ t)
  /-- A line with a value. -/
  | value {value e t : Text} {values : List Text} (he : IsLineEnd e) (h : Feeds values t) :
      Feeds (value :: values) (value ++ e ++ t)

/-- A value that can stand on a line of its own and is found there again. -/
structure FitsLine (value : Text) : Prop where
  /-- The line would not be skipped. -/
  trim_ne_nil : value.trim ≠ []
  /-- The value is not cut. -/
  newline_not_mem : '\n' ∉ value
  /-- No end of the value is taken for a part of the line end. -/
  getLast?_ne : value.getLast? ≠ some '\r'

/-- A line is found as it is, or without a carriage return at its end. -/
theorem lines_append {line e : Text} (hfeed : '\n' ∉ line) (he : IsLineEnd e) (t : Text) :
    (line ++ e ++ t).lines = line :: t.lines ∨
      (line ++ e ++ t).lines = dropEnd '\r' line :: t.lines := by
  rcases he with rfl | rfl
  · right
    rw [List.append_assoc, List.singleton_append, Text.lines_line hfeed]
  · left
    have hfeed' : '\n' ∉ line ++ ['\r'] := by simpa using hfeed
    have := Text.lines_line hfeed' t
    rw [dropEnd_append_self] at this
    rw [← this]
    simp

/-- The values of a text are found in it. -/
theorem filter_lines_of_feeds (h : Feeds values t) (hvalues : ∀ value ∈ values, FitsLine value) :
    t.lines.filter (fun line => !line.trim.isEmpty) = values := by
  induction h with
  | nil => rfl
  | @blank line e t values hline hfeed he h ih =>
    -- a blank line stays blank without a carriage return
    have hskipped : ∀ line' ⊆ line, ¬ (!(Text.trim line').isEmpty) = true := by
      intro line' hsub
      rw [Text.trim_of_forall fun c hc => hline c (hsub hc)]
      decide
    rcases lines_append hfeed he t with hlines | hlines
    · rw [hlines, List.filter_cons, if_neg (hskipped line (List.Subset.refl line)), ih hvalues]
    · rw [hlines, List.filter_cons, if_neg (hskipped _ (dropEnd_subset '\r' line)), ih hvalues]
  | @value value e t values he h ih =>
    obtain ⟨hvalue, hvalues⟩ := List.forall_mem_cons.1 hvalues
    have hcounts : (!(Text.trim value).isEmpty) = true := by
      simpa using hvalue.trim_ne_nil
    have hlines : (value ++ e ++ t).lines = value :: t.lines := by
      rcases lines_append hvalue.newline_not_mem he t with hlines | hlines
      · exact hlines
      · rw [hlines, dropEnd_of_getLast?_ne hvalue.getLast?_ne]
    rw [hlines, List.filter_cons, if_pos hcounts, ih hvalues]

/-! ## Calls -/

/-- Values behind two hyphens alone are answered like the same values on lines of the input. -/
theorem respond_append (hoptions : ['-', '-'] ∉ options)
    (hnone : ∀ a, Arguments.ofList options = .ok a → a.values = []) (hne : values ≠ [])
    (hvalues : ∀ value ∈ values, FitsLine value) (hfeeds : Feeds values t)
    (file : Text → Option ByteArray) (input : ByteArray) :
    respond (options ++ ['-', '-'] :: values) file input =
      respond options file t.utf8Encode := by
  rw [respond, respond, Arguments.ofList_append hoptions]
  cases hlist : Arguments.ofList options with
  | error exit => rfl
  | ok a =>
    have hown : a.values = [] := hnone a hlist
    have hadded : (a.addValues values).values = values := by
      rw [Arguments.addValues, hown, List.nil_append]
    have harguments : (a.addValues values).valuesOr input = .ok values := by
      rw [Arguments.valuesOr, hadded, if_neg (by simpa using hne)]
    have hlines : a.valuesOr t.utf8Encode = .ok values := by
      rw [Arguments.valuesOr, hown, if_pos List.isEmpty_nil, textOfBytes?_eq_some_iff.2 rfl]
      exact congrArg Except.ok (filter_lines_of_feeds hfeeds hvalues)
    have hoptions : (a.addValues values).options file = a.options file := rfl
    show ((a.addValues values).run file input).response = (a.run file t.utf8Encode).response
    rw [Arguments.run, Arguments.run, harguments, hlines, hoptions]
    simp only [Arguments.convertAll_addValues]

/-- Behind two hyphens alone even the name of an option is a value. -/
theorem respond_append_two_values :
    respond (["--json".toList] ++
        ['-', '-'] :: ["linear-gradient(red, blue)".toList, "--quiet".toList])
        (fun _ => none) .empty =
      respond ["--json".toList] (fun _ => none)
        "linear-gradient(red, blue)\r\n \t\n--quiet\n".toList.utf8Encode := by
  have hlist : Arguments.ofList ["--json".toList] = .ok { json := true } :=
    Placement.eq_ok_of_toOption (by decide +kernel)
  have hquiet : Feeds ["--quiet".toList] "--quiet\n".toList := .value (.inl rfl) .nil
  have hblank : Feeds ["--quiet".toList] ([' ', '\t'] ++ ['\n'] ++ "--quiet\n".toList) := by
    refine .blank ?_ (by decide) (.inl rfl) hquiet
    exact List.forall_mem_cons.2 ⟨rfl, List.forall_mem_singleton.2 rfl⟩
  have hfeeds : Feeds ["linear-gradient(red, blue)".toList, "--quiet".toList]
      "linear-gradient(red, blue)\r\n \t\n--quiet\n".toList := .value (.inr rfl) hblank
  apply respond_append (by decide) _ (by simp) _ hfeeds
  · intro a ha
    rw [hlist] at ha
    rw [← Except.ok.inj ha]
  · simp only [List.forall_mem_cons]
    exact ⟨⟨by decide, by decide, by decide⟩, ⟨by decide, by decide, by decide⟩, by simp⟩

end LegacyGradient.Command
