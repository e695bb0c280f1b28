/-
  LegacyGradient.Proofs.Command.Transcript

  What a run prints, and how it ends. The values are answered in order up to the first that stops
  the run, and what was printed before it stays (`exists_ending`). Before the first value is
  answered, the option file has been loaded and all of the input read. So a call either prints
  nothing and fails, or it leaves a transcript (`respond_transcript`), in which an answer is one line
  wherever a value is one or answers are reports.
-/
import LegacyGradient.Command.Response
import LegacyGradient.Proofs.Command.Input
import LegacyGradient.Proofs.Command.Report

namespace LegacyGradient.Command

variable {a : Arguments} {options : Options} {arguments values : List Text} {input : ByteArray}
  {file : Text → Option ByteArray} {done : List (Text × Batch)} {r : Response}

/-! ## What a run is given -/

namespace Arguments

/-- The option file, if there is one, can be read as a text, and this text holds options. -/
def ConfigLoads (a : Arguments) (file : Text → Option ByteArray) : Prop :=
  ∀ path ∈ a.config, ∃ t options, (file path).bind textOfBytes? = some t ∧
    Options.ofJson t = .ok options

/-- Every line of the input is a text. This counts only where no values are among the arguments. -/
def InputReads (a : Arguments) (input : ByteArray) : Prop :=
  a.values = [] → ∀ line ∈ inputLines input, (lineText? line).isSome

/-- The values of a run: those among the arguments, in order, or where there are none the lines of
the input that are not blank. -/
def Takes (a : Arguments) (input : ByteArray) (values : List Text) : Prop :=
  a.values ≠ [] ∧ values = a.values ∨
    a.values = [] ∧ ∃ lines : List Text, (inputLines input).map lineText? = lines.map some ∧
      values = lines.filter fun line => !line.trim.isEmpty

theorem exists_options_iff : (∃ options, a.options file = .ok options) ↔ a.ConfigLoads file := by
  rw [ConfigLoads, options]
  cases a.config with
  | none => exact iff_of_true ⟨_, rfl⟩ (by simp)
  | some path =>
    simp only [Option.mem_some_iff, forall_eq']
    cases (file path).bind textOfBytes? with
    | none => exact iff_of_false (fun ⟨_, h⟩ => nomatch h) (by simp)
    | some t =>
      dsimp only
      cases hjson : Options.ofJson t with
      | error problem => exact iff_of_false (fun ⟨_, h⟩ => nomatch h) (by simp [hjson])
      | ok base => exact iff_of_true ⟨_, rfl⟩ ⟨t, base, rfl, hjson⟩

theorem exists_valuesOr_iff : (∃ values, a.valuesOr input = .ok values) ↔ a.InputReads input := by
  rw [InputReads, valuesOr, ← isSome_textOfBytes?_iff]
  by_cases hvalues : a.values = []
  · rw [hvalues]
    cases textOfBytes? input <;> simp
  · rw [if_neg (by simpa using hvalues)]
    exact iff_of_true ⟨_, rfl⟩ fun h => absurd h hvalues

theorem takes_of_valuesOr (h : a.valuesOr input = .ok values) : a.Takes input values := by
  rw [valuesOr] at h
  by_cases hvalues : a.values = []
  · rw [if_pos (by simpa using hvalues)] at h
    cases ht : textOfBytes? input with
    | none => rw [ht] at h; contradiction
    | some t =>
      rw [ht] at h
      exact .inr ⟨hvalues, t.lines, map_lineText?_of_textOfBytes? ht, (Except.ok.inj h).symm⟩
  · rw [if_neg (by simpa using hvalues)] at h
    exact .inl ⟨hvalues, (Except.ok.inj h).symm⟩

end Arguments

/-! ## Runs over values -/

/-- The answer to a value, without the line feed after it. -/
def Arguments.reply (a : Arguments) (value : Text) (b : Batch) : Text :=
  if a.json then b.report value else b.value

/-- How a run over values ends that begins with a given number and has answered those in `done`:
with all of them answered, or with the first that stops it. -/
inductive Ending (options : Options) (number : Nat) (values : List Text)
    (done : List (Text × Batch)) : Option RunError → Prop where
  /-- Every value is answered. -/
  | complete (h : values = done.map Prod.fst) : Ending options number values done none
  /-- The next value stops the run, whatever values come later. -/
  | stopped {value : Text} {later : List Text} {failure : Failure}
      (h : values = done.map Prod.fst ++ value :: later)
      (habort : Batch.ofText options value = .error failure) :
      Ending options number values done (some (.value (number + done.length) failure))

theorem Ending.cons {number : Nat} {error : Option RunError} (value : Text) (b : Batch)
    (h : Ending options (number + 1) values done error) :
    Ending options number (value :: values) ((value, b) :: done) error := by
  cases h with
  | complete h =>
    rw [h]
    exact .complete rfl
  | stopped h habort =>
    have hnumber : number + 1 + done.length = number + ((value, b) :: done).length := by
      rw [List.length_cons]
      omega
    rw [hnumber, h]
    exact .stopped rfl habort

/-- A run answers values up to the first that stops it. -/
theorem Arguments.exists_ending (a : Arguments) (options : Options) (number : Nat)
    (values : List Text) :
    ∃ done : List (Text × Batch), (∀ p ∈ done, Batch.ofText options p.1 = .ok p.2) ∧
      (a.convertAll options number values).output =
        done.flatMap (fun p => a.reply p.1 p.2 ++ ['\n']) ∧
      Ending options number values done (a.convertAll options number values).error := by
  -- the number of the first value grows with the values that are answered
  induction values generalizing number with
  | nil => exact ⟨[], by simp, rfl, .complete rfl⟩
  | cons value values ih =>
    cases hvalue : Batch.ofText options value with
    | error failure =>
      rw [convertAll, hvalue]
      exact ⟨[], by simp, rfl, .stopped rfl hvalue⟩
    | ok b =>
      obtain ⟨done, hdone, houtput, hending⟩ := ih (number + 1)
      rw [convertAll, hvalue]
      refine ⟨(value, b) :: done, List.forall_mem_cons.2 ⟨hvalue, hdone⟩, ?_, ?_⟩
      · rw [List.flatMap_cons, ← houtput]
        rfl
      · exact hending.cons value b

/-! ## Transcripts -/

/-- What a call gives back that answers the values in `done`, which it converts with these
options: their answers, each followed by a line feed, and if a value stopped the run, the account of
that, where the values are numbered from one. -/
structure Transcript (a : Arguments) (options : Options) (values : List Text)
    (done : List (Text × Batch)) (r : Response) : Prop where
  /-- The values answered convert. -/
  converted : ∀ p ∈ done, Batch.ofText options p.1 = .ok p.2
  /-- The output consists of the answers. -/
  output : r.output = done.flatMap fun p => a.reply p.1 p.2 ++ ['\n']
  /-- All values are answered, or those before one that does not convert. -/
  ending : values = done.map Prod.fst ∧ r.code = 0 ∧ r.errors = [] ∨
    ∃ value later failure, values = done.map Prod.fst ++ value :: later ∧
      Batch.ofText options value = .error failure ∧ r.code = 1 ∧
      r.errors = Account.display ⟨"convert value ".toList ++ Text.ofNat (done.length + 1),
        [failure.message, failure.error.message]⟩

theorem exists_transcript (a : Arguments) (options : Options) (values : List Text) :
    ∃ done, Transcript a options values done (a.convertAll options 1 values).response := by
  obtain ⟨done, hdone, houtput, hending⟩ := a.exists_ending options 1 values
  refine ⟨done, hdone, houtput, ?_⟩
  rw [Outcome.response, Outcome.code]
  generalize (a.convertAll options 1 values).error = error at hending
  cases hending with
  | complete h => exact .inl ⟨h, rfl, rfl⟩
  | stopped h habort =>
    refine .inr ⟨_, _, _, h, habort, rfl, ?_⟩
    rw [Nat.add_comm]
    rfl

theorem Transcript.subset (h : Transcript a options values done r) :
    done.map Prod.fst ⊆ values := by
  rcases h.ending with ⟨hvalues, -⟩ | ⟨value, later, failure, hvalues, -⟩
  · rw [hvalues]
    exact List.Subset.refl _
  · rw [hvalues]
    exact List.subset_append_left _ _

/-- Texts without line feeds are found again where they are cut. -/
theorem splitOn_lines {ts : List Text} (h : ∀ t ∈ ts, '\n' ∉ t) :
    (ts.flatMap (· ++ ['\n'])).splitOn '\n' = ts ++ [[]] := by
  induction ts with
  | nil => rfl
  | cons t ts ih =>
    obtain ⟨ht, hts⟩ := List.forall_mem_cons.1 h
    rw [List.flatMap_cons, List.append_assoc, List.singleton_append,
      List.splitOn_append_cons_self_of_not_mem ht, ih hts]
    rfl

/-- Where values are lines, or answers reports, the lines of the output are the answers. -/
theorem Transcript.splitOn_output (h : Transcript a options values done r)
    (hlines : a.json = true ∨ ∀ value ∈ values, '\n' ∉ value) :
    r.output.splitOn '\n' = done.map (fun p => a.reply p.1 p.2) ++ [[]] := by
  have hreplies : ∀ t ∈ done.map fun p => a.reply p.1 p.2, '\n' ∉ t := by
    intro t ht
    obtain ⟨⟨value, b⟩, hmem, rfl⟩ := List.mem_map.1 ht
    rw [Arguments.reply]
    split
    · exact (Batch.unbroken_report value b).not_mem_newline
    · next hjson =>
      have hvalue := (hlines.resolve_left hjson) value (h.subset (List.mem_map_of_mem hmem))
      intro hfeed
      -- a line feed is not plain, so it would stand in the value
      rcases Batch.drawnFrom_of_ofText (h.converted _ hmem) '\n' hfeed with hsource | hplain
      · exact hvalue hsource
      · exact absurd hplain (by decide)
  have := splitOn_lines hreplies
  rwa [List.flatMap_map, ← h.output] at this

theorem not_mem_newline_of_takes (h : a.Takes input values) (hvalues : a.values = []) :
    ∀ value ∈ values, '\n' ∉ value := by
  rcases h with ⟨hne, -⟩ | ⟨-, lines, hlines, rfl⟩
  · exact absurd hvalues hne
  · intro value hvalue
    have hmem : some value ∈ (inputLines input).map lineText? := by
      rw [hlines]
      exact List.mem_map_of_mem (List.mem_filter.1 hvalue).1
    obtain ⟨line, hline, htext⟩ := List.mem_map.1 hmem
    exact not_mem_of_lineText? htext rfl (not_mem_of_mem_linesBy hline)

/-! ## Calls -/

/-- A call that leads to a run prints nothing and fails if its option file does not load or a line of
the input that it needs is no text. Otherwise it leaves the transcript of its values. There an
answer is one line, whatever characters its value has, if the values are lines of the input or the
answers are reports. -/
theorem respond_transcript (h : Arguments.ofList arguments = .ok a) :
    (¬ (a.ConfigLoads file ∧ a.InputReads input) →
      (respond arguments file input).output = [] ∧ (respond arguments file input).code = 1) ∧
    (a.ConfigLoads file ∧ a.InputReads input →
      ∃ options values done, a.options file = .ok options ∧ a.Takes input values ∧
        Transcript a options values done (respond arguments file input) ∧
        (a.values = [] ∨ a.json = true → (respond arguments file input).output.splitOn '\n' =
          done.map (fun p => a.reply p.1 p.2) ++ [[]])) := by
  rw [← Arguments.exists_options_iff, ← Arguments.exists_valuesOr_iff, respond, h]
  dsimp only
  rw [Arguments.run]
  -- no value is answered before the options and all values are at hand
  cases hoptions : a.options file with
  | error error => exact ⟨fun _ => ⟨rfl, rfl⟩, fun hloads => by simp at hloads⟩
  | ok options =>
    cases hvalues : a.valuesOr input with
    | error error => exact ⟨fun _ => ⟨rfl, rfl⟩, fun hloads => by simp at hloads⟩
    | ok values =>
      have htakes := Arguments.takes_of_valuesOr hvalues
      obtain ⟨done, htranscript⟩ := exists_transcript a options values
      refine ⟨fun hnot => absurd ⟨⟨options, rfl⟩, values, rfl⟩ hnot, fun _ => ?_⟩
      refine ⟨options, values, done, rfl, htakes, htranscript, fun hlines => ?_⟩
      apply htranscript.splitOn_output
      rcases hlines with hnone | hjson
      · exact .inr (not_mem_newline_of_takes htakes hnone)
      · exact .inl hjson

/-- Two values on lines with different ends, and a line between them that is blank. -/
theorem respond_transcript_two_lines :
    let a : Arguments := { json := true }
    let input := "linear-gradient(red, blue)\r\n \nnone\n".toList.utf8Encode
    let r := respond ["--json".toList] (fun _ => none) input
    Arguments.ofList ["--json".toList] = .ok a ∧ a.ConfigLoads (fun _ => none) ∧
      a.InputReads input ∧ ∃ options values done, a.options (fun _ => none) = .ok options ∧
        a.Takes input values ∧ Transcript a options values done r ∧
        r.output.splitOn '\n' = done.map (fun p => a.reply p.1 p.2) ++ [[]] := by
  intro a input r
  have harguments : Arguments.ofList ["--json".toList] = .ok a :=
    Placement.eq_ok_of_toOption (by decide +kernel)
  have hconfig : a.ConfigLoads fun _ => none := fun path hpath => nomatch hpath
  have hinput : a.InputReads input := by
    intro _
    rw [← isSome_textOfBytes?_iff, textOfBytes?_eq_some_iff.2 rfl]
    rfl
  obtain ⟨options, values, done, hoptions, hvalues, htranscript, hlines⟩ :=
    (respond_transcript harguments).2 ⟨hconfig, hinput⟩
  exact ⟨harguments, hconfig, hinput, options, values, done, hoptions, hvalues, htranscript,
    hlines (.inr rfl)⟩

end LegacyGradient.Command
