/-
  LegacyGradient.Json.Ignored

  Passing over a value of any kind, which has to be well-formed all the same. The arrays and
  objects that are open are kept in a list, so that the pass goes straight through the text and the
  depth of a value is not limited.
-/
import LegacyGradient.Json.Value

namespace LegacyGradient.Json.Reader

/-- A value that holds others and is still open. -/
inductive Container where
  /-- An array. -/
  | array
  /-- An object. -/
  | object
deriving DecidableEq

/-- The character that closes a container. -/
def Container.closing : Container → Char
  | array => ']'
  | object => '\x7d'

/-- The container that a character opens. -/
def Container.openedBy? (c : Char) : Option Container :=
  if c = '[' then some .array else if c = '\x7b' then some .object else none

/-- What stands before a value in a container: in an object, a key and a colon. -/
def skipLabel : Container → Reader Unit
  | .array => pure ()
  | .object => do
    mark '"'
    skipStringBody
    mark ':'

/-- What stands between the opening of a container and its first value, unless the container is
closed again at once. -/
def skipLabelOrClosing (c : Container) : Reader Bool := do
  if (← peek) = some c.closing then do
    skip1
    return true
  else do
    skipLabel c
    return false

/-- A value that holds no others. -/
def skipScalar : Reader Unit := do
  match ← here with
  | none => fail .truncated
  | some 'n' => word "null".toList
  | some 't' => word "true".toList
  | some 'f' => word "false".toList
  | some '"' => do skip1; skipStringBody
  | some c =>
    if beginsNumber c then do
      let _ ← numeralText .malformed
      return ()
    else fail .malformed

/-! ## The pass -/

mutual

/-- Passes over a value inside the open containers, and over what is left of these. -/
def skipValue (containers : List Container) (t : Text) : Except Problem Text :=
  match _skipped : t.dropWhile Text.isGap with
  | [] => .error .truncated
  | c :: rest =>
    match Container.openedBy? c with
    | some container =>
      match _read : (skipLabelOrClosing container).run rest with
      | .error problem => .error problem
      | .ok (true, rest) => skipRest containers rest
      | .ok (false, rest) => skipValue (container :: containers) rest
    | none =>
      match _read : skipScalar.run (c :: rest) with
      | .error problem => .error problem
      | .ok ((), rest) => skipRest containers rest
termination_by (t.length, 1)
decreasing_by
  -- a scalar is not known to make the text shorter; then the second part of the measure drops
  all_goals
    have := length_lt_of_dropWhile _skipped
    have := Reader.length_le _ _read
    simp only [List.length_cons, Prod.lex_def] at *
    omega

/-- Passes over what is left of the open containers after a value in the innermost one. -/
def skipRest (containers : List Container) (t : Text) : Except Problem Text :=
  match containers with
  | [] => .ok t
  | container :: outer =>
    match _skipped : t.dropWhile Text.isGap with
    | [] => .error .truncated
    | c :: rest =>
      if c = container.closing then skipRest outer rest
      else if c = ',' then
        match _read : (skipLabel container).run rest with
        | .error problem => .error problem
        | .ok ((), rest) => skipValue (container :: outer) rest
      else .error .malformed
termination_by (t.length, 0)
decreasing_by
  · have := length_lt_of_dropWhile _skipped
    simp only [Prod.lex_def]
    omega
  · have := length_lt_of_dropWhile _skipped
    have := Reader.length_le _ _read
    simp only [Prod.lex_def]
    omega

end

mutual

theorem length_skipValue_le {containers : List Container} {t rest : Text}
    (h : skipValue containers t = .ok rest) : rest.length ≤ t.length := by
  rw [skipValue] at h
  split at h
  case h_1 => contradiction
  case h_2 c after skipped =>
    have shorter := length_lt_of_dropWhile skipped
    split at h
    case h_1 container _ =>
      split at h
      case h_1 => contradiction
      case h_2 after read =>
        have := Reader.length_le _ read
        have := length_skipRest_le h
        omega
      case h_3 after read =>
        have := Reader.length_le _ read
        have := length_skipValue_le h
        omega
    case h_2 =>
      split at h
      case h_1 => contradiction
      case h_2 after read =>
        have := Reader.length_le _ read
        have := length_skipRest_le h
        simp only [List.length_cons] at *
        omega
termination_by (t.length, 1)
decreasing_by
  all_goals
    simp only [List.length_cons, Prod.lex_def] at *
    omega

theorem length_skipRest_le {containers : List Container} {t rest : Text}
    (h : skipRest containers t = .ok rest) : rest.length ≤ t.length := by
  rw [skipRest.eq_def] at h
  split at h
  case h_1 => cases h; exact Nat.le_refl _
  case h_2 container outer =>
    split at h
    case h_1 => contradiction
    case h_2 c after skipped =>
      have shorter := length_lt_of_dropWhile skipped
      split at h
      case isTrue =>
        have := length_skipRest_le h
        omega
      case isFalse =>
        split at h
        case isTrue =>
          split at h
          case h_1 => contradiction
          case h_2 after read =>
            have := Reader.length_le _ read
            have := length_skipValue_le h
            omega
        case isFalse => contradiction
termination_by (t.length, 0)
decreasing_by
  all_goals
    simp only [Prod.lex_def] at *
    omega

end

/-- A value of any kind, which is not kept. -/
def ignored : Reader Unit where
  run t := (skipValue [] t).map fun rest => ((), rest)
  length_le {t _ _} h := by
    cases hs : skipValue [] t with
    | error => rw [hs] at h; contradiction
    | ok rest =>
      rw [hs] at h
      cases h
      exact length_skipValue_le hs

end LegacyGradient.Json.Reader
