/-
  LegacyGradient.Command.Report

  What the command tells its caller: the report on a converted value, as JSON on one line with its
  fields in alphabetical order, and the account of an error with its causes, the outer one first.
-/
import LegacyGradient.Batch
import LegacyGradient.Json.Compact

namespace LegacyGradient

/-- The JSON text of a failure. -/
def Failure.json (f : Failure) : Text :=
  Json.objectText [
    ("index".toList, Text.ofNat f.index),
    ("kind".toList, Json.stringText f.error.kind),
    ("message".toList, Json.stringText f.error.message),
    ("segment".toList, Json.stringText f.segment)]

/-- The report on a converted value. -/
def Batch.report (input : Text) (b : Batch) : Text :=
  Json.objectText [
    ("converted".toList, Text.ofNat b.converted),
    ("failures".toList, Json.arrayText (b.failures.map Failure.json)),
    ("input".toList, Json.stringText input),
    ("output".toList, Json.stringText b.value)]

namespace Command

/-- An error with its causes, each the cause of the one before it. -/
structure Account where
  /-- What was being done. -/
  headline : Text
  /-- The causes, the outermost one first. -/
  causes : List Text
deriving DecidableEq

namespace Account

/-- A text whose line feeds are followed by blanks. -/
def indented (blanks : Nat) (t : Text) : Text :=
  t.flatMap fun c => if c = '\n' then '\n' :: List.replicate blanks ' ' else [c]

/-- The lines for the causes. Several causes are numbered from zero. -/
def causeLines : List Text → Text
  | [cause] => "    ".toList ++ indented 4 cause ++ ['\n']
  | causes => causes.zipIdx.flatMap fun (cause, i) =>
    let number := Text.ofNat i
    List.replicate (5 - number.length) ' ' ++ number ++ ": ".toList ++ indented 7 cause ++ ['\n']

/-- The text of an account. -/
def display (a : Account) : Text :=
  "Error: ".toList ++ a.headline ++ ['\n'] ++
    if a.causes.isEmpty then [] else "\nCaused by:\n".toList ++ causeLines a.causes

end Account

end Command

end LegacyGradient
