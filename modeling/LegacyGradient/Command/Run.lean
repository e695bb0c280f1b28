/-
  LegacyGradient.Command.Run

  A run of the command, as a function of its arguments, the files and the input. Options come from
  the option file, if there is one, and those among the arguments go before them. The values among
  the arguments are converted one after the other, or the lines of the input if there are none, the
  blank ones left out; the first value that cannot be converted ends the run.
-/
import LegacyGradient.Command.Arguments
import LegacyGradient.Command.Report
import LegacyGradient.Options.Json
import LegacyGradient.Text.Line
import LegacyGradient.Text.Blank

namespace LegacyGradient.Command

/-! ## What may end a run -/

/-- Why an option file does not load. -/
inductive ConfigError where
  /-- The file cannot be read as a text. -/
  | unreadable
  /-- The text of the file does not hold options. -/
  | invalid (problem : Json.Problem)
deriving DecidableEq

/-- The sentence that tells a reader why the option file at a path does not load. -/
def ConfigError.message (path : Text) : ConfigError → Text
  | unreadable => "Failed to read config file ".toList ++ path
  | invalid (.mismatch cause) => "Invalid config: ".toList ++ cause.message
  | invalid .malformed => "Invalid config: not well-formed".toList
  | invalid .truncated => "Invalid config: ends too early".toList

/-- Why a run ends before its end. -/
inductive RunError where
  /-- The option file at a path does not load. -/
  | config (path : Text) (error : ConfigError)
  /-- The input is not a text in UTF-8. -/
  | input
  /-- A value cannot be converted. The values are numbered from one. -/
  | value (number : Nat) (failure : Failure)
deriving DecidableEq

/-- The account of an error. -/
def RunError.account : RunError → Account
  | config path error =>
    ⟨"load config '".toList ++ path ++ "'".toList, [error.message path]⟩
  | input => ⟨"read stdin".toList, ["stream did not contain valid UTF-8".toList]⟩
  | value number failure =>
    ⟨"convert value ".toList ++ Text.ofNat number, [failure.message, failure.error.message]⟩

/-- What a run printed, and the error that ended it, if one did. -/
structure Outcome where
  /-- The text printed. -/
  output : Text
  /-- The error. -/
  error : Option RunError
deriving DecidableEq

/-- The exit code of a run. -/
def Outcome.code (o : Outcome) : Nat := if o.error.isSome then 1 else 0

/-! ## The steps of a run -/

/-- The text of bytes in UTF-8. -/
def textOfBytes? (bytes : ByteArray) : Option Text :=
  (String.fromUTF8? bytes).map String.toList

namespace Arguments

/-- The options of a run, from the option file and the arguments. -/
def options (a : Arguments) (file : Text → Option ByteArray) : Except RunError Options := do
  let base ← match a.config with
    | none => pure {}
    | some path =>
      match (file path).bind textOfBytes? with
      | none => throw (.config path .unreadable)
      | some t =>
        match Options.ofJson t with
        | .ok options => pure options
        | .error problem => throw (.config path (.invalid problem))
  -- a switch cannot be turned off again
  return {
    policy := a.policy.getD base.policy
    parallel := a.parallel || base.parallel
    minStops := a.minStops.getD base.minStops }

/-- The values of a run, from the arguments or else from the input. -/
def valuesOr (a : Arguments) (input : ByteArray) : Except RunError (List Text) :=
  if a.values.isEmpty then
    match textOfBytes? input with
    | none => .error .input
    | some t => .ok (t.lines.filter fun line => !line.trim.isEmpty)
  else .ok a.values

/-- The line that answers a converted value. -/
def answer (a : Arguments) (value : Text) (b : Batch) : Text :=
  (if a.json then b.report value else b.value) ++ ['\n']

/-- Converts values one after the other, the first of which has the given number. -/
def convertAll (a : Arguments) (options : Options) (number : Nat) : List Text → Outcome
  | [] => ⟨[], none⟩
  | value :: values =>
    match Batch.ofText options value with
    | .error failure => ⟨[], some (.value number failure)⟩
    | .ok b =>
      let later := a.convertAll options (number + 1) values
      ⟨a.answer value b ++ later.output, later.error⟩

/-- A run with these arguments. -/
def run (a : Arguments) (file : Text → Option ByteArray) (input : ByteArray) : Outcome :=
  match a.options file with
  | .error error => ⟨[], some error⟩
  | .ok options =>
    match a.valuesOr input with
    | .error error => ⟨[], some error⟩
    | .ok values => a.convertAll options 1 values

end Arguments

end LegacyGradient.Command
