/-
  LegacyGradient.Proofs.Gradient.Written

  Gradients as their authors write them: every token with the blanks around it. A written gradient
  has a text (`WrittenGradient.text`) and says which gradient it means (`direction`, `stops`); each
  of its tokens is a text that the scan of its class takes as a whole.
-/
import LegacyGradient.Gradient

namespace LegacyGradient

/-- A run of the blanks that may stand between two tokens, possibly empty. -/
structure Gap where
  /-- The blanks. -/
  text : Text
  /-- They are all of the kind that the grammar allows. -/
  isGap : ∀ c ∈ text, Text.isGap c = true

/-- No blanks. -/
def Gap.none : Gap := ⟨[], by simp⟩

/-- A color stop with the blanks around its tokens. -/
structure WrittenStop where
  /-- The blanks in front. -/
  before : Gap
  /-- The color. -/
  color : Text
  /-- The color is one as a whole. -/
  color_scan : Color.lexeme color = some (color, [])
  /-- The blanks after the color. -/
  between : Gap
  /-- The length, if there is one. -/
  length : Option Text
  /-- The length is one as a whole. -/
  length_scan : ∀ l ∈ length, Length.lexeme l = some (l, [])
  /-- The blanks at the end. -/
  after : Gap

namespace WrittenStop

/-- The text of a stop. -/
def text (w : WrittenStop) : Text :=
  w.before.text ++ w.color ++ w.between.text ++ w.length.getD [] ++ w.after.text

/-- The stop that is meant. -/
def stop (w : WrittenStop) : Stop := ⟨w.color, w.length⟩

/-- The stop without the blanks in front. -/
def flush (w : WrittenStop) : WrittenStop := { w with before := .none }

/-- A length that begins with a digit is kept apart from a color in digits. -/
def Apart (w : WrittenStop) : Prop :=
  (Color.hex w.color).isSome → (∃ l ∈ w.length, ∃ c ∈ l.head?, c.isDigit = true) →
    w.between.text ≠ []

end WrittenStop

/-- A direction with the comma after it and the blanks around that. -/
structure WrittenDirection where
  /-- The direction. -/
  token : Text
  /-- The direction that is meant. -/
  value : Direction
  /-- The token is one direction as a whole. -/
  scan : Direction.scan token = some (value, [])
  /-- The blanks before the comma. -/
  beforeComma : Gap
  /-- The blanks after the comma. -/
  afterComma : Gap

/-- The text of a direction with its comma. -/
def WrittenDirection.text (d : WrittenDirection) : Text :=
  d.token ++ d.beforeComma.text ++ ',' :: d.afterComma.text

/-- A gradient with the blanks around its tokens. -/
structure WrittenGradient where
  /-- The blanks in front. -/
  before : Gap
  /-- The blanks after the opening parenthesis. -/
  afterOpening : Gap
  /-- The direction with its comma, if there is one. -/
  direction? : Option WrittenDirection
  /-- The first color stop. -/
  first : WrittenStop
  /-- The color stops after the first. -/
  others : List WrittenStop
  /-- The blanks at the end. -/
  after : Gap

namespace WrittenGradient

/-- The color stops. -/
def items (w : WrittenGradient) : List WrittenStop := w.first :: w.others

/-- The text of a gradient. -/
def text (w : WrittenGradient) : Text :=
  w.before.text ++ "linear-gradient(".toList ++ w.afterOpening.text ++
    (w.direction?.elim [] WrittenDirection.text) ++
    Text.join [','] (w.items.map WrittenStop.text) ++ ')' :: w.after.text

/-- The direction that is meant; it goes from the top if none is written. -/
def direction (w : WrittenGradient) : Direction :=
  w.direction?.elim Direction.default WrittenDirection.value

/-- The color stops that are meant. -/
def stops (w : WrittenGradient) : List Stop := w.items.map WrittenStop.stop

/-- The text of the color stops, without the blanks in front. -/
def list (w : WrittenGradient) : Text :=
  Text.join [','] ((w.first.flush :: w.others).map WrittenStop.text)

/-- Without a direction the first of several color stops is not just the keyword of an edge, which
would be read as a direction. -/
def FirstIsStop (w : WrittenGradient) : Prop :=
  w.direction? = none → w.others ≠ [] → w.first.length = none →
    w.first.color ≠ "bottom".toList ∧ w.first.color ≠ "right".toList

/-- Each token ends where its author ends it. -/
structure Clear (w : WrittenGradient) : Prop where
  /-- No length prolongs a color. -/
  apart : ∀ s ∈ w.items, s.Apart
  /-- No color is read as a direction. -/
  firstIsStop : w.FirstIsStop

end WrittenGradient

end LegacyGradient
