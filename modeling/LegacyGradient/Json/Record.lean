/-
  LegacyGradient.Json.Record

  Reading records, values with named fields, and variants, values with a name of their own. A
  record is written as an object, with its fields in any order, or as an array of its fields in
  their order. A variant is written as its name or as an object whose only field has that name.
  The values of a record's fields are gathered one by one in a draft, from which the record is made
  at the end.
-/
import LegacyGradient.Json.Ignored

namespace LegacyGradient.Json

/-! ## Records -/

/-- A field of a record whose draft has type `σ`. -/
structure Field (σ : Type) where
  /-- The name of the field. -/
  name : Text
  /-- Whether the draft has a value for the field. -/
  isGiven : σ → Bool
  /-- Reads the value of the field into the draft. -/
  read : σ → Reader σ

/-- How a record of type `α` is read by way of a draft of type `σ`. -/
structure Record (σ α : Type) where
  /-- The name of the record in messages. -/
  name : Text
  /-- The draft without any value. -/
  blank : σ
  /-- The fields in their order. -/
  fields : List (Field σ)
  /-- Whether fields with other names are passed over, and not refused. -/
  ignoresOthers : Bool
  /-- The record for an array of that many elements. -/
  ofElements : Nat → σ → Except Mismatch α
  /-- The record for an object. -/
  ofMembers : σ → Except Mismatch α

namespace Record

open Reader

variable {σ α : Type}

/-- The values of fields that follow each other in an array, until the array ends. The number of
elements so far is counted on. -/
def elements : List (Field σ) → Nat → σ → Reader (Nat × σ)
  | [], n, draft => return (n, draft)
  | field :: fields, n, draft => do
    if ← hasElement (n = 0) then elements fields (n + 1) (← field.read draft)
    else return (n, draft)

/-- A field of an object, read after the opening quote of its name. -/
def member (record : Record σ α) (draft : σ) : Reader σ := do
  let name ← stringBody
  match record.fields.find? (·.name = name) with
  | some field =>
    if field.isGiven draft then fail (.mismatch (.duplicateField name))
    else do
      mark ':'
      field.read draft
  | none =>
    if record.ignoresOthers then do
      mark ':'
      ignored
      return draft
    else fail (.mismatch (.unknownField name (record.fields.map Field.name)))

/-- A field of an object, read after the character `c` that precedes it: the opening quote of the
first field, and a comma before any other. -/
def memberAfter (record : Record σ α) (first : Bool) (c : Char) (draft : σ) : Reader σ :=
  if first then
    if c = '"' then record.member draft else fail .malformed
  else if c = ',' then do
    mark '"'
    record.member draft
  else fail .malformed

/-- The fields of an object, up to its closing brace, which stays. -/
def members (record : Record σ α) (first : Bool) (draft : σ) (t : Text) :
    Except Problem (σ × Text) :=
  match _skipped : t.dropWhile Text.isGap with
  | [] => .error .truncated
  | c :: rest =>
    if c = '\x7d' then .ok (draft, c :: rest)
    else
      match _read : (record.memberAfter first c draft).run rest with
      | .error problem => .error problem
      | .ok (draft, rest) => record.members false draft rest
termination_by t.length
decreasing_by
  have := length_lt_of_dropWhile _skipped
  have := Reader.length_le _ _read
  omega

theorem length_members_le {record : Record σ α} {first : Bool} {draft draft' : σ}
    {t rest : Text} (h : record.members first draft t = .ok (draft', rest)) :
    rest.length ≤ t.length := by
  fun_induction members record first draft t with
  | case1 => contradiction
  | case2 _ _ t _ skipped =>
    cases h
    have := length_dropWhile_le Text.isGap t
    rwa [skipped] at this
  | case3 => contradiction
  | case4 _ _ _ _ _ skipped _ _ _ read ih =>
    have := length_lt_of_dropWhile skipped
    have := Reader.length_le _ read
    have := ih h
    omega

/-- A record. -/
def read (record : Record σ α) : Reader α := do
  match ← peek with
  | some '[' => do
    skip1
    let (n, draft) ← elements record.fields 0 record.blank
    let value ← accept (record.ofElements n draft)
    mark ']'
    return value
  | some '\x7b' => do
    skip1
    let draft ← ⟨record.members true record.blank, length_members_le⟩
    let value ← accept (record.ofMembers draft)
    mark '\x7d'
    return value
  | _ => unexpected ("struct ".toList ++ record.name)

/-- The value that a draft has for a field, which must not be missing. -/
def required {α : Type} (name : Text) : Option α → Except Mismatch α
  | some a => .ok a
  | none => .error (.missingField name)

/-- A record that passes over fields with other names, and whose arrays have to be complete. -/
def ofDraft (name : Text) (blank : σ) (fields : List (Field σ)) (finish : σ → Except Mismatch α) :
    Record σ α where
  name
  blank
  fields
  ignoresOthers := true
  ofElements n draft :=
    if n < fields.length then
      .error (.wrongLength n ("struct ".toList ++ name ++ " with ".toList ++
        Text.ofNat fields.length ++ " elements".toList))
    else finish draft
  ofMembers := finish

end Record

/-! ## Variants -/

/-- A variant of a type: a plain one, or one that carries a value. -/
inductive Variant (α : Type) where
  /-- The variant with this name and no value. -/
  | plain (name : Text) (value : α)
  /-- The variant with this name and a value that is read after it. -/
  | carrying (name : Text) (value : Reader α)

namespace Variant

open Reader

variable {α : Type}

/-- The name of a variant. -/
def name : Variant α → Text
  | plain name _ => name
  | carrying name _ => name

/-- The variant that a name stands for. Nothing but a string is a name. -/
def readName (variants : List (Variant α)) : Reader (Variant α) := do
  mark '"'
  let name ← stringBody
  match variants.find? (·.name = name) with
  | some v => return v
  | none => fail (.mismatch (.unknownVariant name (variants.map Variant.name)))

/-- One of the variants. -/
def read (variants : List (Variant α)) : Reader α := do
  match ← peek with
  | none => fail .truncated
  | some '\x7b' => do
    skip1
    let v ← readName variants
    mark ':'
    let a ← match v with
      | plain _ a => do null; pure a
      | carrying _ value => value
    mark '\x7d'
    return a
  | some '"' => do
    match ← readName variants with
    | plain _ a => return a
    | carrying _ _ => fail (.mismatch (.wrongType .plainVariant "newtype variant".toList))
  | some _ => fail .malformed

end Variant

end LegacyGradient.Json
