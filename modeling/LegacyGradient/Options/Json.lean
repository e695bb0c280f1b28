/-
  LegacyGradient.Options.Json

  The JSON form of options, in which option files are written. Every field may be left out and then
  has its default; a field that is none of the three is refused.
-/
import LegacyGradient.Json.Compact
import LegacyGradient.Json.Record
import LegacyGradient.Options.Basic

namespace LegacyGradient

namespace Policy

/-- Reads a policy by its name. -/
def reader : Json.Reader Policy := Json.Variant.read (all.map fun p => .plain p.name p)

/-- The JSON text of a policy. -/
def json (p : Policy) : Text := Json.stringText p.name

end Policy

namespace Options

/-- The options that a text gives. -/
structure Draft where
  /-- The policy, if it is given. -/
  policy : Option Policy := none
  /-- Whether to go side by side, if it is given. -/
  parallel : Option Bool := none
  /-- The number of color stops needed, if it is given. -/
  minStops : Option Nat := none
deriving DecidableEq

/-- The options given, and the defaults for the others. -/
def Draft.options (d : Draft) : Options :=
  let defaults : Options := {}
  { policy := d.policy.getD defaults.policy
    parallel := d.parallel.getD defaults.parallel
    minStops := d.minStops.getD defaults.minStops }

/-- The record of options. -/
def record : Json.Record Draft Options where
  name := "ConvertOptions".toList
  blank := {}
  fields := [
    { name := "policy".toList
      isGiven := fun d => d.policy.isSome
      read := fun d => do return { d with policy := some (← Policy.reader) } },
    { name := "parallel".toList
      isGiven := fun d => d.parallel.isSome
      read := fun d => do return { d with parallel := some (← Json.Reader.bool) } },
    { name := "min_stops".toList
      isGiven := fun d => d.minStops.isSome
      read := fun d => do return { d with minStops := some (← Json.Reader.natural) } }]
  ignoresOthers := false
  ofElements _ d := .ok d.options
  ofMembers d := .ok d.options

/-- The options that a JSON text holds. -/
def ofJson (t : Text) : Except Json.Problem Options := record.read.whole t

/-- The JSON text of options. -/
def json (o : Options) : Text :=
  Json.objectText [
    ("policy".toList, o.policy.json),
    ("parallel".toList, Json.boolText o.parallel),
    ("min_stops".toList, Text.ofNat o.minStops)]

end Options

end LegacyGradient
