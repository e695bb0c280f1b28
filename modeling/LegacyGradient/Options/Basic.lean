/-
  LegacyGradient.Options.Basic

  What a conversion may be told: what to do about gradients that cannot be converted, and how many
  color stops a gradient needs at least.
-/
import LegacyGradient.Text.Basic

namespace LegacyGradient

/-- What to do about a gradient that cannot be converted. -/
inductive Policy where
  /-- Give up the whole value. -/
  | abort
  /-- Leave the gradient out. -/
  | skip
  /-- Keep the gradient as it stands. -/
  | keepSource
deriving DecidableEq

namespace Policy

/-- The policies, in the order in which they are listed to a reader. -/
def all : List Policy := [abort, skip, keepSource]

/-- The name of a policy. -/
def name : Policy → Text
  | abort => "abort".toList
  | skip => "skip".toList
  | keepSource => "keep-source".toList

/-- The policy with a given name. -/
def ofName? (t : Text) : Option Policy := all.find? (·.name = t)

end Policy

/-- The options of a conversion. -/
structure Options where
  /-- What to do about a gradient that cannot be converted. -/
  policy : Policy := .abort
  /-- Whether the gradients of a value may be converted side by side. The outcome is the same. -/
  parallel : Bool := false
  /-- The number of color stops that a gradient needs. -/
  minStops : Nat := 2
deriving DecidableEq

end LegacyGradient
