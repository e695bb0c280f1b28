/-
  LegacyGradient.Json.Value

  Reading values of the plain types, and arrays, pairs and absent values of any type. A value of
  another kind is read as far as a message has to name it: a number and a string in full, an array
  and an object not at all.
-/
import LegacyGradient.Json.Numeral
import LegacyGradient.Json.String

namespace LegacyGradient.Json.Reader

variable {α β : Type}

/-- Whether a character begins a number. -/
def beginsNumber (c : Char) : Bool := c == '-' || c.isDigit

/-! ## Plain values -/

/-- A value whose kind is not the expected one. -/
def unexpected (expected : Text) : Reader α := do
  match ← peek with
  | none => fail .truncated
  | some 'n' => do word "null".toList; refuse .null
  | some 't' => do word "true".toList; refuse (.boolean true)
  | some 'f' => do word "false".toList; refuse (.boolean false)
  | some '"' => do skip1; refuse (.string (← stringBody))
  | some '[' => refuse .sequence
  | some '\x7b' => refuse .object
  | some c => if beginsNumber c then do refuse (← numeral).found else fail .malformed
where
  /-- Stops at a value of the given kind. -/
  refuse (found : Found) : Reader α := fail (.mismatch (.wrongType found expected))

/-- The value null. -/
def null : Reader Unit := do
  match ← peek with
  | some 'n' => word "null".toList
  | _ => unexpected "unit".toList

/-- A truth value. -/
def bool : Reader Bool := do
  match ← peek with
  | some 't' => do word "true".toList; return true
  | some 'f' => do word "false".toList; return false
  | _ => unexpected "a boolean".toList

/-- A natural number of at most 64 bits. -/
def natural : Reader Nat := do
  let expected := "usize".toList
  match ← peek with
  | none => fail .truncated
  | some c =>
    if beginsNumber c then
      match ← numeral with
      | .natural n => return n
      | .negative i => fail (.mismatch (.wrongValue (.integer i) expected))
      | .floating x => fail (.mismatch (.wrongType (.number x) expected))
    else unexpected expected

/-- A floating point number, which may be written as an integer. -/
def binary64 : Reader Binary64 := do
  match ← peek with
  | none => fail .truncated
  | some c => if beginsNumber c then return (← numeral).toBinary64 else unexpected "f64".toList

/-- A string. -/
def string : Reader Text := do
  match ← peek with
  | some '"' => do skip1; stringBody
  | _ => unexpected "a string".toList

/-- A value that may be absent, which null stands for. -/
def optional (r : Reader α) : Reader (Option α) := do
  match ← peek with
  | some 'n' => do word "null".toList; return none
  | _ => return some (← r)

/-! ## Arrays -/

/-- An element after a comma, which no closing bracket may follow. -/
def afterComma (element : Reader α) : Reader α := do
  match ← peek with
  | none => fail .truncated
  | some ']' => fail .malformed
  | some _ => element

/-- Whether an array has an element at this place, which is the first one or not. The comma before
the element is taken, and the closing bracket stays. -/
def hasElement (first : Bool) : Reader Bool := do
  match ← peek with
  | none => fail .truncated
  | some ']' => return false
  | some c =>
    if first then return true
    else if c = ',' then do
      skip1
      afterComma (return true)
    else fail .malformed

/-- The elements after the first one. -/
def moreElements (element : Reader α) (t : Text) : Except Problem (List α × Text) :=
  match _skipped : t.dropWhile Text.isGap with
  | [] => .error .truncated
  | c :: rest =>
    if c = ']' then .ok ([], c :: rest)
    else if c = ',' then
      match _read : (afterComma element).run rest with
      | .error problem => .error problem
      | .ok (a, rest) => (moreElements element rest).map fun (as, rest) => (a :: as, rest)
    else .error .malformed
termination_by t.length
decreasing_by
  have := length_lt_of_dropWhile _skipped
  have := Reader.length_le _ _read
  omega

theorem length_moreElements_le {element : Reader α} {t rest : Text} {as : List α}
    (h : moreElements element t = .ok (as, rest)) : rest.length ≤ t.length := by
  fun_induction moreElements element t generalizing as rest with
  | case1 => contradiction
  | case2 t rest' skipped =>
    cases h
    have := length_dropWhile_le Text.isGap t
    rwa [skipped] at this
  | case3 => contradiction
  | case4 t rest' a rest'' read skipped _ ih =>
    cases hm : moreElements _ rest'' with
    | error => rw [hm] at h; contradiction
    | ok found =>
      rw [hm] at h
      cases h
      have := length_lt_of_dropWhile skipped
      have := ih hm
      have := Reader.length_le _ read
      omega
  | case5 => contradiction

/-- An array of any length. -/
def list (element : Reader α) : Reader (List α) := do
  match ← peek with
  | some '[' => do
    skip1
    if ← hasElement true then do
      let a ← element
      let as ← ⟨moreElements element, length_moreElements_le⟩
      mark ']'
      return a :: as
    else do
      mark ']'
      return []
  | _ => unexpected "a sequence".toList

/-- An array of two elements. -/
def pair (first : Reader α) (second : Reader β) : Reader (α × β) := do
  let expected := "a tuple of size 2".toList
  match ← peek with
  | some '[' => do
    skip1
    if !(← hasElement true) then fail (.mismatch (.wrongLength 0 expected))
    let a ← first
    if !(← hasElement false) then fail (.mismatch (.wrongLength 1 expected))
    let b ← second
    mark ']'
    return (a, b)
  | _ => unexpected expected

end LegacyGradient.Json.Reader
