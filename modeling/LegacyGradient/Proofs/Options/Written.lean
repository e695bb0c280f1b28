/-
  LegacyGradient.Proofs.Options.Written

  Options files, however they are written. A file gives some of the three fields, in any order, with
  any blanks and with its names spelled in any way (`File`); it is read as the values that it gives,
  and the defaults for the others. What a file may not have is a field with another name or one
  twice, whatever values stand in them (`ofJson_file`).
-/
import LegacyGradient.Options.Json
import LegacyGradient.Proofs.Json.Strict

namespace LegacyGradient

open Json (Blanks Entry IsValue Member SpellsText objectOf spellsText_self)
open Json.Reader (exists_of_map_run)
open Json.Record (Filled contents)

namespace Policy

variable {p : Policy} {t : Text}

theorem find?_name (p : Policy) :
    (all.map fun p => Json.Variant.plain p.name p).find? (·.name = p.name) =
      some (.plain p.name p) := by
  cases p <;> rfl

theorem skipsBlanks_reader : reader.SkipsBlanks := Json.Variant.skipsBlanks_read _

theorem reader_takesAll (h : IsValue t) : reader.TakesAll t := by
  refine Json.Variant.read_takesAll (fun variant hvariant => ?_) h
  obtain ⟨p, -, rfl⟩ := List.mem_map.1 hvariant
  exact ⟨p.name, p, rfl⟩

end Policy

namespace Options

/-! ## Files -/

/-- A field of options and a value for it. -/
inductive Setting where
  /-- The policy. -/
  | policy (p : Policy)
  /-- Whether to go side by side. -/
  | parallel (b : Bool)
  /-- The number of color stops needed. -/
  | minStops (n : Nat)

namespace Setting

/-- The name of the field. -/
def name : Setting → Text
  | policy _ => "policy".toList
  | parallel _ => "parallel".toList
  | minStops _ => "min_stops".toList

/-- Options with the value in its field. -/
def set (o : Options) : Setting → Options
  | policy p => { o with policy := p }
  | parallel b => { o with parallel := b }
  | minStops n => { o with minStops := n }

/-- The value of the field may be written like this. -/
inductive Writes : Setting → Text → Prop where
  /-- A policy is a string that spells its name. -/
  | policy {p : Policy} {t : Text} (h : SpellsText p.name t) :
      Writes (.policy p) ('"' :: (t ++ ['"']))
  /-- In place of the string, an object may have the name for its only field, with the value
  null. -/
  | policyField {p : Policy} (b : Blanks) (e : Entry) (hname : e.name = p.name)
      (hvalue : e.value = "null".toList) : Writes (.policy p) (objectOf b [e.toMember])
  /-- A truth value. -/
  | parallel (b : Bool) : Writes (.parallel b) (if b then "true".toList else "false".toList)
  /-- A natural number of at most 64 bits is written with its decimal digits. -/
  | minStops {n : Nat} (hn : n < 2 ^ 64) : Writes (.minStops n) (Text.ofNat n)

end Setting

/-- A field as it stands in an options file. -/
structure WrittenSetting extends Entry where
  /-- The field and its value. -/
  setting : Setting
  /-- The name that is spelled is that of the field. -/
  name_eq : name = setting.name
  /-- The text of the value is one of the value. -/
  writes : setting.Writes value

/-- The text of a file with these fields. -/
def fileText (before inside : Blanks) (members : List Member) (after : Blanks) : Text :=
  before ++ (objectOf inside members ++ after)

/-- An options file. -/
structure File where
  /-- The blanks before the opening brace. -/
  before : Blanks
  /-- The blanks behind the opening brace. -/
  inside : Blanks
  /-- The fields, in their order. -/
  settings : List WrittenSetting
  /-- The blanks behind the closing brace. -/
  after : Blanks
  /-- No field is given twice. -/
  distinct : (settings.map (·.setting.name)).Nodup

namespace File

/-- The text of a file. -/
def text (f : File) : Text :=
  fileText f.before f.inside (f.settings.map (·.toMember)) f.after

/-- The options that a file gives, with the defaults for the others. -/
def options (f : File) : Options :=
  f.settings.foldl (fun o w => w.setting.set o)
    { policy := .abort, parallel := false, minStops := 2 }

end File

/-! ## Reading the values -/

variable {s s' : Setting} {t : Text} {d : Draft}

/-- The draft with the value in its field. -/
def Draft.put (d : Draft) : Setting → Draft
  | .policy p => { d with policy := some p }
  | .parallel b => { d with parallel := some b }
  | .minStops n => { d with minStops := some n }

/-- Whether the draft has a value for the field. -/
def Draft.has (d : Draft) : Setting → Bool
  | .policy _ => d.policy.isSome
  | .parallel _ => d.parallel.isSome
  | .minStops _ => d.minStops.isSome

theorem Draft.has_put_of_ne (h : s.name ≠ s'.name) : (d.put s).has s' = d.has s' := by
  cases s <;> cases s' <;> try rfl
  -- what is left are the pairs of one field
  all_goals exact absurd rfl h

theorem Draft.options_put : (d.put s).options = s.set d.options := by
  cases s <;> rfl

theorem Setting.reader_policy {p : Policy} (h : (Setting.policy p).Writes t) :
    Policy.reader.Gives t (.ok p) := by
  cases h with
  | policy h => exact Json.Variant.read_plain_spells p.find?_name h
  | policyField b e hname hvalue =>
    exact Json.Variant.read_plain_object e b hvalue (hname ▸ p.find?_name)

/-- Each field has a reader, which reads the texts of its values. -/
theorem exists_field (s : Setting) : ∃ field,
    record.fields.find? (·.name = s.name) = some field ∧ (∀ d, field.isGiven d = d.has s) ∧
      ∀ t, s.Writes t → ∀ d (b : Blanks), (field.read d).Gives (b ++ t) (.ok (d.put s)) := by
  cases s with
  | policy p =>
    refine ⟨_, rfl, fun _ => rfl, fun t ht d b => ?_⟩
    exact ((Setting.reader_policy ht).map fun p => { d with policy := some p }).blanks_append
      (Policy.skipsBlanks_reader.bind _) b
  | parallel b =>
    refine ⟨_, rfl, fun _ => rfl, fun t ht d blanks => ?_⟩
    obtain ⟨⟩ := ht
    exact ((Json.Reader.bool_gives b).map fun b => { d with parallel := some b }).blanks_append
      (Json.Reader.skipsBlanks_bool.bind _) blanks
  | minStops n =>
    refine ⟨_, rfl, fun _ => rfl, fun t ht d b => ?_⟩
    cases ht with
    | minStops hn =>
      exact ((Json.Reader.natural_gives (Nat.le_of_lt_succ hn)).map
        fun n => { d with minStops := some n }).blanks_append
          (Json.Reader.skipsBlanks_natural.bind _) b

/-- The fields of a file fill a draft that has none of them. -/
theorem filled (ws : List WrittenSetting) (hdistinct : (ws.map (·.setting.name)).Nodup)
    (hnew : ∀ w ∈ ws, d.has w.setting = false) :
    record.Filled d (contents (ws.map (·.toEntry)))
      (.ok (ws.foldl (fun d w => d.put w.setting) d)) := by
  induction ws generalizing d with
  | nil => exact .nil d
  | cons w ws ih =>
    obtain ⟨hw, hdistinct⟩ := List.nodup_cons.1 hdistinct
    obtain ⟨hfirst, hnew⟩ := List.forall_mem_cons.1 hnew
    obtain ⟨field, hfield, hgiven, hread⟩ := exists_field w.setting
    have hrest := ih (d := d.put w.setting) hdistinct fun w' hw' => by
      have hne : w.setting.name ≠ w'.setting.name := fun heq =>
        hw (List.mem_map.2 ⟨w', hw', heq.symm⟩)
      rw [Draft.has_put_of_ne hne]
      exact hnew w' hw'
    exact .cons (w.name_eq ▸ hfield) ((hgiven d).trans hfirst)
      (hread w.value w.writes d w.beforeValue) hrest

theorem ofJson_fileText (before inside : Blanks) (members : List Member) (after : Blanks) :
    ofJson (fileText before inside members after) =
      record.read.whole (objectOf inside members ++ after) :=
  (Json.Record.skipsBlanks_read record).whole before _

theorem ofJson_text (f : File) : ofJson f.text = .ok f.options := by
  have hfilled := filled (d := {}) f.settings f.distinct fun w _ => by cases w.setting <;> rfl
  have hgives := hfilled.objectOf_gives Draft.options (fun _ _ => rfl) f.inside
  rw [List.map_map] at hgives
  have hdrafts : ∀ (ws : List WrittenSetting) (d : Draft),
      (ws.foldl (fun d w => d.put w.setting) d).options =
        ws.foldl (fun o w => w.setting.set o) d.options := by
    intro ws
    induction ws with
    | nil => exact fun _ => rfl
    | cons w ws ih =>
      intro d
      rw [List.foldl_cons, List.foldl_cons, ih, Draft.options_put]
  rw [File.text, ofJson_fileText]
  refine (Json.Reader.whole_append_blanks hgives f.after).trans ?_
  exact congrArg Except.ok (hdrafts f.settings {})

/-- Options are read as they were written. -/
theorem ofJson_json (o : Options) (h : o.minStops < 2 ^ 64) : ofJson o.json = .ok o := by
  have hpolicy := (Json.Variant.read_plain o.policy.find?_name).map
    fun p => { policy := some p : Draft }
  have hparallel := (Json.Reader.bool_gives o.parallel).map
    fun b => { policy := some o.policy, parallel := some b : Draft }
  have hminStops := (Json.Reader.natural_gives (Nat.le_of_lt_succ h)).map
    fun n => { policy := some o.policy, parallel := some o.parallel, minStops := some n : Draft }
  have hfilled : record.Filled {} [("policy".toList, o.policy.json),
      ("parallel".toList, Json.boolText o.parallel), ("min_stops".toList, Text.ofNat o.minStops)]
      (.ok ⟨some o.policy, some o.parallel, some o.minStops⟩) :=
    .cons rfl rfl hpolicy (.cons rfl rfl hparallel (.cons rfl rfl hminStops (.nil _)))
  exact Json.Reader.whole_of_gives (hfilled.read_gives Draft.options (fun _ _ => rfl))

/-! ## Files with other fields -/

/-- What holds of each of the three fields holds of all fields of the record. -/
theorem forall_field {P : Json.Field Draft → Prop}
    (hpolicy : P ⟨"policy".toList, fun d => d.policy.isSome,
      fun d => do return { d with policy := some (← Policy.reader) }⟩)
    (hparallel : P ⟨"parallel".toList, fun d => d.parallel.isSome,
      fun d => do return { d with parallel := some (← Json.Reader.bool) }⟩)
    (hminStops : P ⟨"min_stops".toList, fun d => d.minStops.isSome,
      fun d => do return { d with minStops := some (← Json.Reader.natural) }⟩) :
    ∀ field ∈ record.fields, P field :=
  List.forall_mem_cons.2 ⟨hpolicy, List.forall_mem_cons.2 ⟨hparallel,
    List.forall_mem_cons.2 ⟨hminStops, by simp⟩⟩⟩

theorem record_strict : record.Strict where
  refuses := rfl
  skipsBlanks := forall_field (fun _ => Policy.skipsBlanks_reader.bind _)
    (fun _ => Json.Reader.skipsBlanks_bool.bind _) (fun _ => Json.Reader.skipsBlanks_natural.bind _)
  takesAll := forall_field (fun _ _ h => (Policy.reader_takesAll h).map _)
    (fun _ _ h => (Json.Reader.bool_takesAll h).map _)
    (fun _ _ h => (Json.Reader.natural_takesAll h).map _)
  gives := by
    refine forall_field ?_ ?_ ?_
    all_goals
      intro d t d' rest hrun
      obtain ⟨a, rfl⟩ := exists_of_map_run hrun
      rfl
  keeps := by
    refine forall_field ?_ ?_ ?_
    · intro d t d' rest hrun
      obtain ⟨p, rfl⟩ := exists_of_map_run hrun
      exact forall_field (fun _ => rfl) id id
    · intro d t d' rest hrun
      obtain ⟨b, rfl⟩ := exists_of_map_run hrun
      exact forall_field id (fun _ => rfl) id
    · intro d t d' rest hrun
      obtain ⟨n, rfl⟩ := exists_of_map_run hrun
      exact forall_field id id fun _ => rfl

theorem Setting.Writes.isValue (h : s.Writes t) : IsValue t := by
  cases h with
  | policy h => exact .string h.isBody
  | policyField b e _ hvalue =>
    refine .object b [e.toMember] ?_ ?_
    · simpa using e.spells.isBody
    · simpa [hvalue] using IsValue.word (t := "null".toList) (by simp)
  | parallel b => cases b <;> exact .word (by simp)
  | minStops _ => exact .number (Json.Reader.isNumber_ofNat _)

/-- A file with any JSON values has no field with another name, and none twice. -/
theorem fresh_of_ofJson {o : Options} (before inside after : Blanks) {entries : List Entry}
    (hvalues : ∀ e ∈ entries, IsValue e.value)
    (h : ofJson (fileText before inside (entries.map Entry.toMember) after) = .ok o) :
    record.Fresh {} entries := by
  rw [ofJson_fileText, Json.Reader.whole] at h
  split at h
  · contradiction
  · next hrun => exact record_strict.read_ok hvalues inside hrun

/-- A file with a field more, at any place, is refused if the field has another name or that of a
field of the file. -/
theorem exists_ofJson_eq_error (f : File) {front back : List WrittenSetting} {e : Entry}
    (hsettings : f.settings = front ++ back) (hvalue : IsValue e.value)
    (hname : e.name ∉ ["policy", "parallel", "min_stops"].map String.toList ∨
      e.name ∈ f.settings.map (·.setting.name)) :
    ∃ problem, ofJson (fileText f.before f.inside
      (front.map (·.toMember) ++ e.toMember :: back.map (·.toMember)) f.after) =
        .error problem := by
  have hentries : front.map (·.toMember) ++ e.toMember :: back.map (·.toMember) =
      (front.map (·.toEntry) ++ e :: back.map (·.toEntry)).map Entry.toMember := by
    simp [Function.comp_def]
  have hnames : ∀ ws : List WrittenSetting,
      (ws.map (·.toEntry)).map Entry.name = ws.map (·.setting.name) := by
    intro ws
    simp [WrittenSetting.name_eq]
  have hvalues : ∀ e' ∈ front.map (·.toEntry) ++ e :: back.map (·.toEntry), IsValue e'.value := by
    intro e' he'
    simp only [List.mem_append, List.mem_cons, List.mem_map] at he'
    rcases he' with ⟨w, -, rfl⟩ | rfl | ⟨w, -, rfl⟩
    · exact w.writes.isValue
    · exact hvalue
    · exact w.writes.isValue
  rw [hentries]
  cases hjson : ofJson (fileText f.before f.inside
      ((front.map (·.toEntry) ++ e :: back.map (·.toEntry)).map Entry.toMember) f.after) with
  | error problem => exact ⟨problem, rfl⟩
  | ok o =>
    obtain ⟨hknown, -, hnodup⟩ := fresh_of_ofJson _ _ _ hvalues hjson
    rcases hname with hname | hname
    · exact absurd (hknown e (by simp)) hname
    · rw [List.map_append, List.map_cons, hnames, hnames] at hnodup
      rw [hsettings, List.map_append] at hname
      exact absurd hname (List.nodup_cons.1 (List.perm_middle.nodup_iff.1 hnodup)).1

/-! ## Options files -/

/-- A file is read as the options that it gives, and options that are written are read as they were.
A file with one more field, at any place and with any JSON value, is refused if the field has another
name or that of a field of the file. -/
theorem ofJson_file :
    (∀ f : File, ofJson f.text = .ok f.options) ∧
      (∀ o : Options, o.minStops < 2 ^ 64 → ofJson o.json = .ok o) ∧
      ∀ (f : File) (front back : List WrittenSetting) (e : Entry),
        f.settings = front ++ back → IsValue e.value →
        (e.name ∉ ["policy", "parallel", "min_stops"].map String.toList ∨
          e.name ∈ f.settings.map (·.setting.name)) →
        ∃ problem, ofJson (fileText f.before f.inside
          (front.map (·.toMember) ++ e.toMember :: back.map (·.toMember)) f.after) =
            .error problem :=
  ⟨ofJson_text, ofJson_json, fun f _ _ _ => exists_ofJson_eq_error f⟩

/-- A name may be spelled with an escape, and is the same name then. -/
theorem ofJson_file_spelled :
    ofJson " \x7b\"min\\u005Fstops\" :\t18446744073709551615\x7d ".toList =
        .ok { policy := .abort, parallel := false, minStops := 2 ^ 64 - 1 } ∧
      ofJson (json ⟨.keepSource, true, 0⟩) = .ok ⟨.keepSource, true, 0⟩ ∧
      ∃ problem, ofJson
        " \x7b\"min_stops\":[],\"min\\u005Fstops\" :\t18446744073709551615\x7d ".toList =
          .error problem := by
  obtain ⟨hfile, hjson, hmore⟩ := ofJson_file
  have hunit : Json.HexUnit "005F".toList '_'.toNat :=
    .intro (i := 0) (j := 0) (k := 5) (l := 15) (.inl rfl) (.inl rfl) (.inl rfl) (.inr rfl)
  have hline : SpellsText "_".toList "\\u005F".toList := .cons (.unit hunit) .nil
  let written : WrittenSetting :=
    { before := .none, key := "min\\u005Fstops".toList, afterKey := ⟨[' '], by simp⟩
      beforeValue := ⟨['\t'], by simp⟩, value := Text.ofNat (2 ^ 64 - 1), after := .none
      name := "min_stops".toList
      spells := (spellsText_self (s := "min".toList) (by simp)).append
        (hline.append (spellsText_self (s := "stops".toList) (by simp)))
      setting := .minStops (2 ^ 64 - 1), name_eq := rfl, writes := .minStops (by decide) }
  let f : File :=
    { before := ⟨[' '], by simp⟩, inside := .none, settings := [written]
      after := ⟨[' '], by simp⟩, distinct := by simp }
  let more : Entry :=
    { before := .none, key := "min_stops".toList, afterKey := .none, beforeValue := .none
      value := "[]".toList, after := .none, name := "min_stops".toList
      spells := spellsText_self (by simp) }
  refine ⟨?_, hjson _ (by decide), ?_⟩
  · exact hfile f
  · exact hmore f [] [written] more rfl (.array .none [] (by simp)) (.inr (List.mem_cons_self ..))

end Options

end LegacyGradient
