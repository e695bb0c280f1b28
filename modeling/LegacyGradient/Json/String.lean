/-
  LegacyGradient.Json.String

  JSON strings. Written, only the double quote, the backslash and the characters below the space
  are escaped. Read, every escape of JSON is known; one for half of a surrogate pair must be
  followed by one for the other half.
-/
import LegacyGradient.Json.Reader

namespace LegacyGradient.Json

/-! ## Writing -/

/-- The written form of one character of a string. -/
def stringChar (c : Char) : Text :=
  if c = '"' then ['\\', '"']
  else if c = '\\' then ['\\', '\\']
  else if c = '\x08' then ['\\', 'b']
  else if c = '\t' then ['\\', 't']
  else if c = '\n' then ['\\', 'n']
  else if c = '\x0c' then ['\\', 'f']
  else if c = '\r' then ['\\', 'r']
  else if c < ' ' then
    ['\\', 'u', '0', '0', Nat.digitChar (c.toNat / 16), Nat.digitChar (c.toNat % 16)]
  else [c]

/-- The written form of a string. -/
def stringText (t : Text) : Text := ['"'] ++ t.flatMap stringChar ++ ['"']

/-! ## Reading -/

namespace Reader

/-- The value of four hexadecimal digits. -/
def hexUnit? (a b c d : Char) : Option Nat := do
  let digits ← [a, b, c, d].mapM Text.hexDigitValue?
  return digits.foldl (fun n digit => 16 * n + digit) 0

/-- The number of bytes of a text in UTF-8. -/
def byteLength (t : Text) : Nat := (t.map Char.utf8Size).foldl (· + ·) 0

/-- The four hexadecimal digits of an escape. A text of fewer than four bytes ends early, whatever
its characters are. -/
def hexUnit : Reader Nat where
  run
    | a :: b :: c :: d :: rest =>
      match hexUnit? a b c d with
      | some n => .ok (n, rest)
      | none => .error .malformed
    | t => if byteLength t < 4 then .error .truncated else .error .malformed
  length_le h := by
    split at h
    · split at h
      · cases h
        simp only [List.length_cons]
        omega
      · contradiction
    · split at h <;> contradiction

/-- The character that an escape with one letter stands for. -/
def shortEscape? : Char → Option Char
  | '"' => some '"'
  | '\\' => some '\\'
  | '/' => some '/'
  | 'b' => some '\x08'
  | 'f' => some '\x0c'
  | 'n' => some '\n'
  | 'r' => some '\r'
  | 't' => some '\t'
  | _ => none

/-- A unit of the first half of the surrogates, which begins a pair. -/
def IsLeading (n : Nat) : Prop := 0xD800 ≤ n ∧ n ≤ 0xDBFF

/-- A unit of the second half of the surrogates, which ends a pair. -/
def IsTrailing (n : Nat) : Prop := 0xDC00 ≤ n ∧ n ≤ 0xDFFF

instance (n : Nat) : Decidable (IsLeading n) := inferInstanceAs (Decidable (_ ∧ _))

instance (n : Nat) : Decidable (IsTrailing n) := inferInstanceAs (Decidable (_ ∧ _))

/-- The character that an escape with hexadecimal digits stands for, read after its letter. -/
def unicodeEscape : Reader Char := do
  let n ← hexUnit
  if IsTrailing n then fail .malformed
  else if IsLeading n then do
    -- the other half comes in an escape of its own
    word ['\\', 'u']
    let m ← hexUnit
    if IsTrailing m then pure (Char.ofNat (0x10000 + (n - 0xD800) * 0x400 + (m - 0xDC00)))
    else fail .malformed
  else pure (Char.ofNat n)

/-- An escape, read after the backslash: the text it stands for. Hexadecimal digits are left to
`unicode`. -/
def escape (unicode : Reader Text) : Reader Text := do
  match ← here with
  | none => fail .truncated
  | some 'u' => do skip1; unicode
  | some c =>
    match shortEscape? c with
    | some d => do skip1; pure [d]
    | none => fail .malformed

/-- The characters of a string up to its closing quote, which is taken. -/
def untilQuote (unicode : Reader Text) (t : Text) : Except Problem (Text × Text) :=
  match t with
  | [] => .error .truncated
  | '"' :: rest => .ok ([], rest)
  | '\\' :: rest =>
    match _read : (escape unicode).run rest with
    | .error problem => .error problem
    | .ok (c, rest) => (untilQuote unicode rest).map fun (s, rest) => (c ++ s, rest)
  | c :: rest =>
    if c < ' ' then .error .malformed
    else (untilQuote unicode rest).map fun (s, rest) => (c :: s, rest)
termination_by t.length
decreasing_by
  -- an escape is longer than its backslash
  · have := (escape unicode).length_le _read
    simp only [List.length_cons]
    omega
  · simp

theorem length_untilQuote_le {unicode : Reader Text} {t s rest : Text}
    (h : untilQuote unicode t = .ok (s, rest)) : rest.length ≤ t.length := by
  fun_induction untilQuote unicode t generalizing s rest with
  | case1 => contradiction
  | case2 => cases h; simp
  | case3 => contradiction
  | case4 rest' c rest'' read ih =>
    cases hu : untilQuote unicode rest'' with
    | error => rw [hu] at h; contradiction
    | ok found =>
      rw [hu] at h
      cases h
      have := ih hu
      have := (escape unicode).length_le read
      simp only [List.length_cons]
      omega
  | case5 => contradiction
  | case6 c rest' _ _ _ ih =>
    cases hu : untilQuote unicode rest' with
    | error => rw [hu] at h; contradiction
    | ok found =>
      rw [hu] at h
      cases h
      have := ih hu
      simp only [List.length_cons]
      omega

/-- The rest of a string, read after its opening quote. -/
def stringBody : Reader Text where
  run := untilQuote (do return [← unicodeEscape])
  length_le := length_untilQuote_le

/-- Passes over the rest of a string, read after its opening quote. Its surrogates need not be
paired. -/
def skipStringBody : Reader Unit where
  run t := (untilQuote (do let _ ← hexUnit; return []) t).map fun (_, rest) => ((), rest)
  length_le {t _ _} h := by
    cases hu : untilQuote (do let _ ← hexUnit; return []) t with
    | error => rw [hu] at h; contradiction
    | ok found =>
      rw [hu] at h
      cases h
      exact length_untilQuote_le hu

end Reader

end LegacyGradient.Json
