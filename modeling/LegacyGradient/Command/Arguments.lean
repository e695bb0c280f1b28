/-
  LegacyGradient.Command.Arguments

  The command line. Options have long names with two hyphens, some also a letter with one, and
  letters may be run together. A value follows its option as the next argument, or after an equals
  sign. Options may stand between the values to convert; after two hyphens alone nothing is an
  option any more. Arguments are taken from left to right and the first fault counts, but a
  request for help or for the version that comes before it is answered.
-/
import LegacyGradient.Options.Basic
import LegacyGradient.Text.Digits

namespace LegacyGradient.Command

/-! ## What a command line gives -/

/-- What a command line asks for. -/
structure Arguments where
  /-- The property values to convert. -/
  values : List Text := []
  /-- The policy, if it is given. -/
  policy : Option Policy := none
  /-- Whether segments may be converted side by side. -/
  parallel : Bool := false
  /-- The number of color stops needed, if it is given. -/
  minStops : Option Nat := none
  /-- The option file, if there is one. -/
  config : Option Text := none
  /-- Whether each value is answered with a report. -/
  json : Bool := false
  /-- How often more messages are asked for. -/
  verbosity : Nat := 0
  /-- Whether only errors are to be logged. -/
  quiet : Bool := false
deriving DecidableEq

/-- A fault in a command line. -/
inductive UsageError where
  /-- An option that does not exist. -/
  | unknownOption (option : Text)
  /-- An option that may be given once is given again. -/
  | repeated (option : Text)
  /-- An option lacks its value. -/
  | valueMissing (option : Text)
  /-- The value of an option is not one of its values. -/
  | invalidValue (option value : Text)
  /-- An option that takes no value is given one. -/
  | needlessValue (option value : Text)
  /-- Two options exclude each other. -/
  | conflict (option other : Text)
deriving DecidableEq

/-- The sentence that tells a reader the fault. -/
def UsageError.message : UsageError → Text
  | unknownOption option => "unexpected argument '".toList ++ option ++ "' found".toList
  | repeated option =>
    "the argument '".toList ++ option ++ "' cannot be used multiple times".toList
  | valueMissing option =>
    "a value is required for '".toList ++ option ++ "' but none was supplied".toList
  | invalidValue option value =>
    "invalid value '".toList ++ value ++ "' for '".toList ++ option ++ "'".toList
  | needlessValue option value =>
    "unexpected value '".toList ++ value ++ "' for '".toList ++ option ++ "' found".toList
  | conflict option other =>
    "the argument '".toList ++ option ++ "' cannot be used with '".toList ++ other ++ "'".toList

/-- Why a command line does not lead to a run. -/
inductive Exit where
  /-- Help is asked for. -/
  | help
  /-- The version is asked for. -/
  | version
  /-- The command line has a fault. -/
  | usage (error : UsageError)
deriving DecidableEq

/-! ## Options -/

/-- The options that take no value. -/
inductive Switch where
  /-- Convert side by side. -/
  | parallel
  /-- Answer with reports. -/
  | json
  /-- Log more. -/
  | verbose
  /-- Log errors only. -/
  | quiet
  /-- Show help. -/
  | help
  /-- Show the version. -/
  | version
deriving DecidableEq

/-- The options that take a value. -/
inductive Setting where
  /-- The policy. -/
  | policy
  /-- The number of color stops needed. -/
  | minStops
  /-- The option file. -/
  | config
deriving DecidableEq

namespace Switch

/-- All switches. -/
def all : List Switch := [parallel, json, verbose, quiet, help, version]

/-- The long name of a switch. -/
def name : Switch → Text
  | parallel => "parallel".toList
  | json => "json".toList
  | verbose => "verbose".toList
  | quiet => "quiet".toList
  | help => "help".toList
  | version => "version".toList

/-- The letter of a switch, if it has one. -/
def letter? : Switch → Option Char
  | verbose => some 'v'
  | quiet => some 'q'
  | help => some 'h'
  | version => some 'V'
  | parallel | json => none

end Switch

namespace Setting

/-- All settings. -/
def all : List Setting := [policy, minStops, config]

/-- The long name of a setting. -/
def name : Setting → Text
  | policy => "policy".toList
  | minStops => "min-stops".toList
  | config => "config".toList

end Setting

/-! ## Reading a command line -/

/-- The natural number that a text denotes: digits, with an optional plus sign before them, and of
at most 64 bits. -/
def count? (t : Text) : Option Nat :=
  let digits := match t with
    | '+' :: digits => digits
    | digits => digits
  if digits.isEmpty || !digits.all Char.isDigit then none
  else
    let n := Text.natOfDigits digits
    if n ≤ 0xFFFFFFFFFFFFFFFF then some n else none

/-- An option as a reader would write it. -/
def spelled (name : Text) : Text := '-' :: '-' :: name

namespace Arguments

/-- The arguments with a switch turned on. -/
def turnOn (a : Arguments) (s : Switch) : Except Exit Arguments :=
  let again : Except Exit Arguments := .error (.usage (.repeated (spelled s.name)))
  match s with
  | .parallel => if a.parallel then again else .ok { a with parallel := true }
  | .json => if a.json then again else .ok { a with json := true }
  | .verbose => .ok { a with verbosity := a.verbosity + 1 }
  | .quiet => if a.quiet then again else .ok { a with quiet := true }
  | .help => .error .help
  | .version => .error .version

/-- The arguments with the switches of a run of letters turned on. -/
def turnOnLetters (a : Arguments) : Text → Except Exit Arguments
  | [] => .ok a
  | c :: letters =>
    match Switch.all.find? (·.letter? = some c) with
    | some s => do (← a.turnOn s).turnOnLetters letters
    | none => .error (.usage (.unknownOption ['-', c]))

/-- The arguments with a setting given a value. -/
def give (a : Arguments) (s : Setting) (value : Text) : Except Exit Arguments :=
  let again : Except Exit Arguments := .error (.usage (.repeated (spelled s.name)))
  let invalid : Except Exit Arguments := .error (.usage (.invalidValue (spelled s.name) value))
  match s with
  | .policy =>
    if a.policy.isSome then again
    else match Policy.ofName? value with
      | some policy => .ok { a with policy := some policy }
      | none => invalid
  | .minStops =>
    if a.minStops.isSome then again
    else match count? value with
      | some n => .ok { a with minStops := some n }
      | none => invalid
  | .config =>
    if a.config.isSome then again
    else if value.isEmpty then invalid
    else .ok { a with config := some value }

/-- Whether an argument is read as options: it begins with a hyphen and is more than that. -/
def isOptional : Text → Bool
  | '-' :: _ :: _ => true
  | _ => false

/-- The arguments with those of a list added, from left to right. -/
def add (a : Arguments) : List Text → Except Exit Arguments
  | [] => .ok a
  | t :: rest =>
    -- everything after two hyphens alone is a value
    if t = ['-', '-'] then .ok { a with values := a.values ++ rest }
    else if ['-', '-'].isPrefixOf t then
      let name := (t.drop 2).takeWhile (· ≠ '=')
      let attached := ((t.drop 2).dropWhile (· ≠ '=')).drop 1
      let hasAttached := (t.drop 2).contains '='
      match Switch.all.find? (·.name = name), Setting.all.find? (·.name = name) with
      | some s, _ =>
        if hasAttached then .error (.usage (.needlessValue (spelled name) attached))
        else do (← a.turnOn s).add rest
      | none, some s =>
        if hasAttached then do (← a.give s attached).add rest
        else match rest with
          | [] => .error (.usage (.valueMissing (spelled name)))
          | value :: rest =>
            -- an option is no value of the option before it
            if isOptional value then .error (.usage (.valueMissing (spelled name)))
            else do (← a.give s value).add rest
      | none, none => .error (.usage (.unknownOption t))
    else if isOptional t then do (← a.turnOnLetters (t.drop 1)).add rest
    else ({ a with values := a.values ++ [t] }).add rest

/-- The arguments that a command line gives. Being quiet and logging more exclude each other. -/
def ofList (arguments : List Text) : Except Exit Arguments := do
  let a ← ({} : Arguments).add arguments
  if a.quiet ∧ 0 < a.verbosity then
    throw (.usage (.conflict (spelled Switch.quiet.name) (spelled Switch.verbose.name)))
  return a

end Arguments

end LegacyGradient.Command
