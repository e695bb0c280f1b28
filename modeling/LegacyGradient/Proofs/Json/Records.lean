/-
  LegacyGradient.Proofs.Json.Records

  What readers make of objects as they are written. The fields of an object fill the draft of a
  record one after the other, until all are read or one is refused (`Filled`), and the record is
  made of the draft at the end, wherever blanks stand and however the names are spelled
  (`objectOf_gives`). An object that is written without blanks is one of these (`read_gives`). A
  variant is read from its name, and from its value if it carries one.
-/
import LegacyGradient.Json.Record
import LegacyGradient.Proofs.Json.Reads

namespace LegacyGradient.Json

variable {σ α : Type} {name value t v : Text} {c : Char}

/-! ## Records -/

namespace Record

open Reader

variable {record : Record σ α} {field : Field σ} {draft : σ} {outcome : Except Problem σ}
  {ms : List (Text × Text)} {entries : List Entry} {e : Entry}

/-- The fields of an object, read from this draft on, come to this outcome. -/
inductive Filled (record : Record σ α) : σ → List (Text × Text) → Except Problem σ → Prop where
  /-- No field is left. -/
  | nil (draft : σ) : Filled record draft [] (.ok draft)
  /-- The value of a field goes into the draft. -/
  | cons {draft draft' : σ} {name value : Text} {ms : List (Text × Text)} {field : Field σ}
      {outcome : Except Problem σ} (hfield : record.fields.find? (·.name = name) = some field)
      (hgiven : field.isGiven draft = false) (hread : (field.read draft).Gives value (.ok draft'))
      (hrest : Filled record draft' ms outcome) : Filled record draft ((name, value) :: ms) outcome
  /-- The value of a field is refused. -/
  | refused {draft : σ} {name value : Text} {ms : List (Text × Text)} {field : Field σ}
      {problem : Problem} (hfield : record.fields.find? (·.name = name) = some field)
      (hgiven : field.isGiven draft = false) (hread : (field.read draft).Gives value (.error problem)) :
      Filled record draft ((name, value) :: ms) (.error problem)

theorem members_eq (first : Bool) (draft : σ) (t : Text) :
    record.members first draft t =
      match t.dropWhile Text.isGap with
      | [] => .error .truncated
      | c :: rest =>
        if c = '\x7d' then .ok (draft, c :: rest)
        else
          match (record.memberAfter first c draft).run rest with
          | .error problem => .error problem
          | .ok (draft, rest) => record.members false draft rest := by
  rw [members]
  split
  · next heq => rw [heq]
  · next c rest heq =>
    simp only [heq]
    split
    · rfl
    · split <;> next hread => rw [hread]

theorem members_blanks (first : Bool) (draft : σ) (b : Blanks) (t : Text) :
    record.members first draft (b ++ t) = record.members first draft t := by
  rw [members_eq, b.dropWhile_append, ← members_eq]

/-- The other fields, read after the first or another one. -/
def others (record : Record σ α) (found : σ × Text) : Except Problem (σ × Text) :=
  record.members false found.1 found.2

theorem members_cons (first : Bool) (hgap : Text.isGap c = false) (hclose : c ≠ '\x7d') (t : Text) :
    record.members first draft (c :: t) =
      ((record.memberAfter first c draft).run t).bind record.others := by
  rw [members_eq, Text.dropWhile_outside (Text.outside_cons.2 hgap)]
  dsimp only
  rw [if_neg hclose]
  cases (record.memberAfter first c draft).run t <;> rfl

theorem members_close (first : Bool) (draft : σ) (v : Text) :
    record.members first draft ('\x7d' :: v) = .ok (draft, '\x7d' :: v) := by
  rw [members_eq]
  rfl

/-! ### Single fields -/

/-- The fields from the first one on, read after the blanks before it. -/
theorem members_first (draft : σ) (m : Member) (v : Text) :
    record.members true draft (m.text ++ v) =
      ((record.member draft).run (m.key ++ '"' :: (m.afterKey ++ ':' ::
        (m.beforeValue ++ (m.value ++ (m.after ++ v)))))).bind record.others := by
  rw [m.text_append, members_blanks]
  exact members_cons true rfl (by decide) _

/-- The fields from another one on, read after its comma and the blanks before it. -/
theorem members_next (draft : σ) (m : Member) (v : Text) :
    record.members false draft (',' :: (m.text ++ v)) =
      ((record.member draft).run (m.key ++ '"' :: (m.afterKey ++ ':' ::
        (m.beforeValue ++ (m.value ++ (m.after ++ v)))))).bind record.others := by
  have hafter : record.memberAfter false ',' draft =
      (mark '"' >>= fun _ => record.member draft) := rfl
  rw [m.text_append, members_cons false rfl (by decide), hafter,
    run_bind_ok (mark_blanks_cons rfl _ _)]

/-- A field is read by the reader of its name. -/
theorem member_spells (e : Entry) (hfield : record.fields.find? (·.name = e.name) = some field)
    (hgiven : field.isGiven draft = false)
    (hread : (field.read draft).Gives (e.beforeValue ++ e.value) outcome) (hv : Ends v) :
    (record.member draft).run (e.key ++ '"' :: (e.afterKey ++ ':' ::
      (e.beforeValue ++ (e.value ++ v)))) = outcome.map fun draft => (draft, v) := by
  rw [member, run_bind_ok (stringBody_spells e.spells _), hfield]
  dsimp only
  rw [hgiven, if_neg Bool.false_ne_true, run_bind_ok (mark_blanks_cons rfl _ _), ← List.append_assoc]
  exact hread v hv

/-! ### All fields -/

/-- The text behind a field: the other fields, each behind a comma, and the closing brace. -/
def membersAfter (ms : List Member) (v : Text) : Text :=
  (ms.map Member.text).flatMap ([','] ++ ·) ++ '\x7d' :: v

theorem membersAfter_cons (m : Member) (ms : List Member) (v : Text) :
    membersAfter (m :: ms) v = ',' :: (m.text ++ membersAfter ms v) := by
  simp [membersAfter]

theorem ends_membersAfter (ms : List Member) (v : Text) : Ends (membersAfter ms v) := by
  cases ms with
  | nil => exact Text.outside_cons.2 rfl
  | cons m ms => exact Text.outside_cons.2 rfl

/-- The names of fields, each with its value as it stands behind the colon. -/
def contents (entries : List Entry) : List (Text × Text) :=
  entries.map fun e => (e.name, e.beforeValue ++ e.value)

theorem Filled.membersAfter (h : record.Filled draft (contents entries) outcome) (v : Text) :
    record.members false draft (membersAfter (entries.map Entry.toMember) v) =
      outcome.map fun draft => (draft, '\x7d' :: v) := by
  induction entries generalizing draft with
  | nil =>
    cases h
    exact members_close false draft v
  | cons e entries ih =>
    have hends := (ends_membersAfter (entries.map Entry.toMember) v).blanks_append e.after
    rw [List.map_cons, membersAfter_cons, members_next]
    cases h with
    | cons hfield hgiven hread hrest =>
      rw [member_spells e hfield hgiven hread hends]
      exact (members_blanks false _ e.after _).trans (ih hrest)
    | refused hfield hgiven hread =>
      rw [member_spells e hfield hgiven hread hends]
      rfl

theorem Filled.members_join (h : record.Filled draft (contents entries) outcome) (v : Text) :
    record.members true draft
        (Text.join [','] ((entries.map Entry.toMember).map Member.text) ++ '\x7d' :: v) =
      outcome.map fun draft => (draft, '\x7d' :: v) := by
  cases entries with
  | nil =>
    cases h
    exact members_close true draft v
  | cons e entries =>
    have hends := (ends_membersAfter (entries.map Entry.toMember) v).blanks_append e.after
    rw [List.map_cons, List.map_cons, Text.join_cons, List.append_assoc, members_first]
    cases h with
    | cons hfield hgiven hread hrest =>
      rw [← Record.membersAfter, member_spells e hfield hgiven hread hends]
      exact (members_blanks false _ e.after _).trans (hrest.membersAfter v)
    | refused hfield hgiven hread =>
      rw [← Record.membersAfter, member_spells e hfield hgiven hread hends]
      rfl

/-- The fields of an object on top of a draft, and its closing brace. -/
def objectBody (record : Record σ α) (draft : σ) : Reader α := do
  let draft ← ⟨record.members true draft, length_members_le⟩
  let value ← accept (record.ofMembers draft)
  mark '\x7d'
  return value

theorem read_cons (record : Record σ α) (t : Text) :
    record.read.run ('\x7b' :: t) = (record.objectBody record.blank).run t := by
  rw [read, run_peek rfl]
  rfl

theorem skipsBlanks_read (record : Record σ α) : record.read.SkipsBlanks := skipsBlanks_peek.bind _

/-- An object is read as the record that is made of its fields. -/
theorem Filled.objectOf_gives (make : σ → α)
    (h : record.Filled record.blank (contents entries) outcome)
    (hmake : ∀ draft, outcome = .ok draft → record.ofMembers draft = .ok (make draft)) (b : Blanks) :
    record.read.Gives (objectOf b (entries.map Entry.toMember)) (outcome.map make) := by
  intro v _
  have hrun := (members_blanks true record.blank b _).trans (h.members_join v)
  rw [objectOf_append, read_cons, objectBody]
  cases houtcome : outcome with
  | error problem =>
    rw [houtcome] at hrun
    exact run_bind_error hrun
  | ok draft =>
    rw [houtcome] at hrun
    refine (run_bind_ok hrun).trans ?_
    rw [hmake draft houtcome]
    exact (run_bind_ok (a := make draft) rfl).trans (run_bind_ok (mark_cons rfl v))

/-- A field as it is written without blanks. -/
def compactEntry (m : Text × Text) : Entry where
  before := .none
  key := m.1.flatMap stringChar
  afterKey := .none
  beforeValue := .none
  value := m.2
  after := .none
  name := m.1
  spells := spellsText_flatMap m.1

theorem objectText_eq (ms : List (Text × Text)) :
    objectText ms = objectOf .none ((ms.map compactEntry).map Entry.toMember) := by
  simp [objectText, objectOf, Function.comp_def, Member.text, compactEntry, Blanks.none, stringText]

theorem contents_compactEntry (ms : List (Text × Text)) : contents (ms.map compactEntry) = ms := by
  simp [contents, Function.comp_def, compactEntry, Blanks.none]

/-- An object that is written without blanks is read as the record that is made of its fields. -/
theorem Filled.read_gives (make : σ → α) (h : record.Filled record.blank ms outcome)
    (hmake : ∀ draft, outcome = .ok draft → record.ofMembers draft = .ok (make draft)) :
    record.read.Gives (objectText ms) (outcome.map make) := by
  rw [← contents_compactEntry ms] at h
  rw [objectText_eq]
  exact h.objectOf_gives make hmake .none

end Record

/-! ## Variants -/

namespace Variant

open Reader

variable {variants : List (Variant α)} {variant : Variant α} {a : α} {reader : Reader α}
  {outcome : Except Problem α} {key : Text}

theorem skipsBlanks_readName (variants : List (Variant α)) : (readName variants).SkipsBlanks :=
  (skipsBlanks_mark _).bind _

theorem skipsBlanks_read (variants : List (Variant α)) : (read variants).SkipsBlanks :=
  skipsBlanks_peek.bind _

theorem readName_spells (h : variants.find? (·.name = name) = some variant)
    (hkey : SpellsText name key) (b : Blanks) (v : Text) :
    (readName variants).run (b ++ '"' :: (key ++ '"' :: v)) = .ok (variant, v) := by
  rw [readName, run_bind_ok (mark_blanks_cons rfl b _), run_bind_ok (stringBody_spells hkey v), h]
  rfl

theorem readName_cons (h : variants.find? (·.name = name) = some variant) (v : Text) :
    (readName variants).run (stringText name ++ v) = .ok (variant, v) := by
  rw [stringText_append]
  exact readName_spells h (spellsText_flatMap name) .none v

/-- A variant without a value is read from its name, however that is spelled. -/
theorem read_plain_spells (h : variants.find? (·.name = name) = some (.plain name a))
    (hkey : SpellsText name key) : (read variants).Gives ('"' :: (key ++ ['"'])) (.ok a) := by
  intro v _
  have hname := readName_spells h hkey .none v
  rw [List.cons_append, List.append_assoc, List.singleton_append, read, run_peek rfl]
  exact run_bind_ok hname

theorem read_plain (h : variants.find? (·.name = name) = some (.plain name a)) :
    (read variants).Gives (stringText name) (.ok a) := by
  simpa [stringText] using read_plain_spells h (spellsText_flatMap name)

/-- The name of a variant and its value, with the closing brace. -/
def objectBody (variants : List (Variant α)) : Reader α := do
  let v ← readName variants
  mark ':'
  let a ← match v with
    | plain _ a => do null; pure a
    | carrying _ value => value
  mark '\x7d'
  return a

theorem read_cons (variants : List (Variant α)) (t : Text) :
    (read variants).run ('\x7b' :: t) = (objectBody variants).run t := by
  rw [read, run_peek rfl]
  rfl

/-- A variant without a value is also read from an object that has null for its value. -/
theorem read_plain_object (e : Entry) (b : Blanks) (hvalue : e.value = "null".toList)
    (h : variants.find? (·.name = e.name) = some (.plain e.name a)) :
    (read variants).Gives (objectOf b [e.toMember]) (.ok a) := by
  intro v _
  have htext : Text.join [','] ([e.toMember].map Member.text) = e.text := by
    simp [Text.join, List.intercalate]
  have hnull := (null_gives.blanks_append skipsBlanks_null e.beforeValue) (e.after ++ '\x7d' :: v)
    (Ends.blanks_append (Text.outside_cons.2 rfl) e.after)
  rw [List.append_assoc, ← hvalue] at hnull
  rw [objectOf_append, htext, e.text_append, read_cons, objectBody,
    (skipsBlanks_readName variants).bind _ b, run_bind_ok (readName_spells h e.spells _ _),
    run_bind_ok (mark_blanks_cons rfl _ _)]
  refine (run_bind_ok hnull).trans ((run_bind_ok (a := a) rfl).trans ?_)
  exact run_bind_ok (mark_blanks_cons rfl e.after v)

/-- A variant that carries a value is read as that value is. -/
theorem read_carrying (h : variants.find? (·.name = name) = some (.carrying name reader))
    (hread : reader.Gives value outcome) :
    (read variants).Gives (objectText [(name, value)]) outcome := by
  intro v _
  have htext : objectText [(name, value)] ++ v =
      '\x7b' :: (stringText name ++ ':' :: (value ++ '\x7d' :: v)) := by
    simp [objectText, Text.join, List.intercalate]
  have hvalue := hread ('\x7d' :: v) (Text.outside_cons.2 rfl)
  rw [htext, read_cons, objectBody, run_bind_ok (readName_cons h _), run_bind_ok (mark_cons rfl _)]
  cases houtcome : outcome with
  | error problem =>
    rw [houtcome] at hvalue
    exact run_bind_error hvalue
  | ok a =>
    rw [houtcome] at hvalue
    exact (run_bind_ok hvalue).trans (run_bind_ok (mark_cons rfl v))

end Variant

end LegacyGradient.Json
