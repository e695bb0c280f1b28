/-
  LegacyGradient.Proofs.Json.Strict

  Records that refuse what they do not know. An object that is read as such a record has no field
  with another name and none twice, whatever values stand in it (`read_ok`). The reason is that a
  value which is read is taken whole, so that the names of the object are those that are read, and
  that a name once read stays given in the draft.
-/
import LegacyGradient.Proofs.Json.Taken

namespace LegacyGradient.Json.Record

open Reader

variable {σ α : Type} {record : Record σ α} {draft draft' : σ} {v rest : Text} {a : α} {e : Entry}
  {entries : List Entry}

/-- Fields with other names are refused, and the values of the others are taken whole and kept. -/
structure Strict (record : Record σ α) : Prop where
  /-- A field with another name is not passed over. -/
  refuses : record.ignoresOthers = false
  /-- Blanks may stand before a value. -/
  skipsBlanks : ∀ field ∈ record.fields, ∀ draft, (field.read draft).SkipsBlanks
  /-- A value that is read is taken whole. -/
  takesAll : ∀ field ∈ record.fields, ∀ draft t, IsValue t → (field.read draft).TakesAll t
  /-- A value that is read is given. -/
  gives : ∀ field ∈ record.fields, ∀ draft t draft' rest,
    (field.read draft).run t = .ok (draft', rest) → field.isGiven draft' = true
  /-- The values that were given before are still given. -/
  keeps : ∀ field ∈ record.fields, ∀ draft t draft' rest,
    (field.read draft).run t = .ok (draft', rest) →
      ∀ other ∈ record.fields, other.isGiven draft = true → other.isGiven draft' = true

/-- The draft has a value for the field with this name. -/
def Given (record : Record σ α) (draft : σ) (name : Text) : Prop :=
  ∃ field, record.fields.find? (·.name = name) = some field ∧ field.isGiven draft = true

/-- A field that is read has a name that the record knows and that was not given before; from then
on it is. -/
theorem Strict.member_ok (h : record.Strict) (hvalue : IsValue e.value) (hv : Ends v)
    (hrun : (record.member draft).run (e.key ++ '"' :: (e.afterKey ++ ':' ::
      (e.beforeValue ++ (e.value ++ v)))) = .ok (draft', rest)) :
    rest = v ∧ e.name ∈ record.fields.map Field.name ∧ ¬ record.Given draft e.name ∧
      record.Given draft' e.name ∧ ∀ name, record.Given draft name → record.Given draft' name := by
  rw [member, run_bind_ok (stringBody_spells e.spells _)] at hrun
  split at hrun
  case h_2 =>
    rw [h.refuses, if_neg Bool.false_ne_true] at hrun
    contradiction
  case h_1 field hfind =>
    split at hrun
    · contradiction
    have hfield := List.mem_of_find?_eq_some hfind
    rw [run_bind_ok (mark_blanks_cons rfl _ _), ← List.append_assoc] at hrun
    have htakes := (h.takesAll field hfield draft _ hvalue).blanks_append
      (h.skipsBlanks field hfield draft) e.beforeValue
    refine ⟨htakes v hv _ _ hrun, ?_, ?_, ⟨field, hfind, h.gives field hfield _ _ _ _ hrun⟩, ?_⟩
    · have hname := List.find?_some hfind
      exact List.mem_map.2 ⟨field, hfield, of_decide_eq_true hname⟩
    · rintro ⟨field', hfind', hgiven⟩
      obtain rfl := Option.some.inj (hfind.symm.trans hfind')
      contradiction
    · rintro name ⟨other, hother, hgiven⟩
      exact ⟨other, hother, h.keeps field hfield _ _ _ _ hrun other
        (List.mem_of_find?_eq_some hother) hgiven⟩

/-- The record knows the names of these fields, and none of them is given or occurs twice. -/
structure Fresh (record : Record σ α) (draft : σ) (entries : List Entry) : Prop where
  /-- Every name is that of a field of the record. -/
  known : ∀ e ∈ entries, e.name ∈ record.fields.map Field.name
  /-- No field has a value yet. -/
  new : ∀ e ∈ entries, ¬ record.Given draft e.name
  /-- No name occurs twice. -/
  nodup : (entries.map Entry.name).Nodup

/-- The step from the fields behind a field to all of them. -/
theorem Strict.fresh_cons (h : record.Strict) (hvalue : IsValue e.value)
    (hothers : ∀ draft, record.members false draft (membersAfter (entries.map Entry.toMember) v) =
      .ok (draft', rest) → record.Fresh draft entries)
    (hrun : ((record.member draft).run (e.key ++ '"' :: (e.afterKey ++ ':' ::
      (e.beforeValue ++ (e.value ++ (e.after ++
        membersAfter (entries.map Entry.toMember) v)))))).bind record.others = .ok (draft', rest)) :
    record.Fresh draft (e :: entries) := by
  have hends := (ends_membersAfter (entries.map Entry.toMember) v).blanks_append e.after
  cases hmember : (record.member draft).run (e.key ++ '"' :: (e.afterKey ++ ':' ::
      (e.beforeValue ++ (e.value ++ (e.after ++ membersAfter (entries.map Entry.toMember) v))))) with
  | error problem =>
    rw [hmember] at hrun
    contradiction
  | ok found =>
    rw [hmember] at hrun
    obtain ⟨hrest, hknown, hnew, hgiven, hkeeps⟩ := h.member_ok hvalue hends hmember
    replace hrun : record.members false found.1 found.2 = .ok (draft', rest) := hrun
    rw [hrest, members_blanks] at hrun
    obtain ⟨hknowns, hnews, hnodup⟩ := hothers found.1 hrun
    refine ⟨List.forall_mem_cons.2 ⟨hknown, hknowns⟩, List.forall_mem_cons.2 ⟨hnew, ?_⟩, ?_⟩
    · exact fun e' he' hbefore => hnews e' he' (hkeeps _ hbefore)
    · rw [List.map_cons, List.nodup_cons]
      refine ⟨fun hmem => ?_, hnodup⟩
      obtain ⟨e', he', hname⟩ := List.mem_map.1 hmem
      exact hnews e' he' (hname ▸ hgiven)

theorem Strict.fresh_of_members (h : record.Strict) (hvalues : ∀ e ∈ entries, IsValue e.value)
    (hrun : record.members false draft (membersAfter (entries.map Entry.toMember) v) =
      .ok (draft', rest)) : record.Fresh draft entries := by
  induction entries generalizing draft with
  | nil => exact ⟨by simp, by simp, by simp⟩
  | cons e entries ih =>
    obtain ⟨hvalue, hvalues⟩ := List.forall_mem_cons.1 hvalues
    rw [List.map_cons, membersAfter_cons, members_next] at hrun
    exact h.fresh_cons hvalue (fun _ => ih hvalues) hrun

/-- An object that is read as a strict record has only names that the record knows, and none of them
twice, whatever values its fields have. -/
theorem Strict.read_ok (h : record.Strict) (hvalues : ∀ e ∈ entries, IsValue e.value) (b : Blanks)
    (hrun : record.read.run (objectOf b (entries.map Entry.toMember) ++ v) = .ok (a, rest)) :
    record.Fresh record.blank entries := by
  rw [objectOf_append, read_cons, objectBody] at hrun
  obtain ⟨draft', t', hmembers, -⟩ := run_bind_eq_ok hrun
  replace hmembers := (members_blanks true record.blank b _).symm.trans hmembers
  cases entries with
  | nil => exact ⟨by simp, by simp, by simp⟩
  | cons e entries =>
    obtain ⟨hvalue, hvalues⟩ := List.forall_mem_cons.1 hvalues
    rw [List.map_cons, List.map_cons, Text.join_cons, List.append_assoc, members_first,
      ← membersAfter] at hmembers
    exact h.fresh_cons hvalue (fun _ => h.fresh_of_members hvalues) hmembers

end LegacyGradient.Json.Record
