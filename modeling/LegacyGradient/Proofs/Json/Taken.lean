/-
  LegacyGradient.Proofs.Json.Taken

  What readers take of any JSON value. A reader refuses the values that are not of its type, but
  one that it reads it takes whole and leaves what stands behind it (`TakesAll`), so that no text in
  a value can be mistaken for a part of the object around it. This holds for truth values and
  natural numbers, and for variants that carry no values.
-/
import LegacyGradient.Proofs.Json.Numeral
import LegacyGradient.Proofs.Json.Records

namespace LegacyGradient.Json

open Reader (beginsNumber)

variable {α β : Type} {r : Reader α} {t u v s rest : Text} {c : Char} {a : α}

/-! ## Kinds of values -/

theorem IsNumber.exists_cons (h : IsNumber t) :
    ∃ c u, t = c :: u ∧ beginsNumber c = true := by
  obtain @⟨sign, whole, fraction, power, hsign, hwhole, -, -, -⟩ := h
  obtain ⟨c, whole, rfl⟩ := List.exists_cons_of_ne_nil hwhole.1
  have hc := hwhole.2 c (List.mem_cons_self ..)
  simp only [List.mem_cons, List.not_mem_nil, or_false] at hsign
  rcases hsign with rfl | rfl
  · exact ⟨c, _, rfl, by rw [beginsNumber, hc, Bool.or_true]⟩
  · exact ⟨'-', _, rfl, rfl⟩

theorem IsNumber.beginsNumber (h : IsNumber t) (hc : t.head? = some c) :
    beginsNumber c = true := by
  obtain ⟨c', u, rfl, hc'⟩ := h.exists_cons
  rwa [← Option.some.inj hc]

namespace IsValue

/-- The first character of a word. -/
theorem head_word (h : t ∈ ["null".toList, "true".toList, "false".toList]) :
    t.head? = some 'n' ∨ t.head? = some 't' ∨ t.head? = some 'f' := by
  simp only [List.mem_cons, List.not_mem_nil, or_false] at h
  rcases h with rfl | rfl | rfl
  · exact .inl rfl
  · exact .inr (.inl rfl)
  · exact .inr (.inr rfl)

/-- No value begins with a blank. -/
theorem exists_cons (h : IsValue t) : ∃ c u, t = c :: u ∧ Text.isGap c = false := by
  cases h with
  | word h =>
    simp only [List.mem_cons, List.not_mem_nil, or_false] at h
    rcases h with rfl | rfl | rfl <;> exact ⟨_, _, rfl, rfl⟩
  | number h =>
    obtain ⟨c, u, rfl, hc⟩ := h.exists_cons
    refine ⟨c, u, rfl, Bool.eq_false_iff.2 fun hgap => ?_⟩
    simp only [Text.isGap, Bool.or_eq_true, beq_iff_eq] at hgap
    rcases hgap with ((rfl | rfl) | rfl) | rfl <;> contradiction
  | string | array | object => exact ⟨_, _, rfl, rfl⟩

/-- A value that begins as a word does is this word. -/
theorem eq_word (h : IsValue t) (hu : u ∈ ["null".toList, "true".toList, "false".toList])
    (hhead : t.head? = u.head?) : t = u := by
  cases h with
  | word h =>
    have hwords : ∀ t ∈ ["null".toList, "true".toList, "false".toList],
        ∀ u ∈ ["null".toList, "true".toList, "false".toList], t.head? = u.head? → t = u := by
      decide
    exact hwords t h u hu hhead
  | number h =>
    rcases head_word hu with hu | hu | hu <;>
      exact absurd (h.beginsNumber (hhead.trans hu)) (by decide)
  | string | array | object =>
    rcases head_word hu with hu | hu | hu <;> simp [hu, arrayOf, objectOf] at hhead

theorem isNumber (h : IsValue t) (hhead : t.head? = some c) (hc : beginsNumber c = true) :
    IsNumber t := by
  cases h with
  | word h =>
    rcases head_word h with h | h | h <;> obtain rfl := Option.some.inj (h.symm.trans hhead) <;>
      exact absurd hc (by decide)
  | number h => exact h
  | string | array | object =>
    obtain rfl := Option.some.inj hhead
    exact absurd hc (by decide)

theorem exists_isBody (h : IsValue t) (hhead : t.head? = some '"') :
    ∃ s, IsBody s ∧ t = '"' :: (s ++ ['"']) := by
  cases h with
  | word h => simpa [hhead] using head_word h
  | number h => exact absurd (h.beginsNumber hhead) (by decide)
  | string h => exact ⟨_, h, rfl⟩
  | array | object => simp [arrayOf, objectOf] at hhead

theorem exists_objectOf (h : IsValue t) (hhead : t.head? = some '\x7b') :
    ∃ b ms, (∀ m ∈ ms, IsBody m.key) ∧ (∀ m ∈ ms, IsValue m.value) ∧ t = objectOf b ms := by
  cases h with
  | word h => simpa [hhead] using head_word h
  | number h => exact absurd (h.beginsNumber hhead) (by decide)
  | object b ms hkeys hvalues => exact ⟨b, ms, hkeys, hvalues, rfl⟩
  | string | array => simp [arrayOf] at hhead

end IsValue

namespace Reader

/-! ## Strings -/

theorem word_cons_eq_ok {w : Text} {x : Unit} (h : (word (c :: w)).run t = .ok (x, rest)) :
    ∃ t', t = c :: t' ∧ (word w).run t' = .ok (x, rest) := by
  cases t with
  | nil => contradiction
  | cons d t =>
    have hstep : (word (c :: w)).run (d :: t) =
        (if d = c then do skip1; word w else fail .malformed : Reader Unit).run (d :: t) := rfl
    rw [hstep] at h
    split at h
    · next hd => exact ⟨t, by rw [hd], h⟩
    · contradiction

/-- An escape in digits leaves the rest of the string, the second one of a pair taken with it. -/
theorem unicodeEscape_rest {n : Nat} {ds : Text} (hds : HexUnit ds n) (h : IsBody t)
    (hrun : unicodeEscape.run (ds ++ (t ++ '"' :: v)) = .ok (c, rest)) :
    ∃ u, IsBody u ∧ u.length ≤ t.length ∧ rest = u ++ '"' :: v := by
  rw [unicodeEscape, run_bind_ok (hexUnit_append hds _)] at hrun
  split at hrun
  · contradiction
  split at hrun
  · obtain ⟨_, t₁, hword, hrun⟩ := run_bind_eq_ok hrun
    obtain ⟨t₂, ht₂, hword⟩ := word_cons_eq_ok hword
    obtain ⟨t₃, rfl, hword⟩ := word_cons_eq_ok hword
    obtain rfl : t₃ = t₁ := congrArg Prod.snd (Except.ok.inj hword)
    -- of all that may follow in a string, only another escape in digits begins like this
    cases h with
    | nil => simp at ht₂
    | plain _ hescape _ _ => exact absurd (List.cons.inj ht₂).1 hescape
    | letter hd _ =>
      exact absurd (List.cons.inj (List.cons.inj ht₂).2).1 (shortEscape?_letter hd).1
    | @unit ds' t' _ hds' h =>
      obtain rfl : ds' ++ (t' ++ '"' :: v) = t₃ := by simpa using ht₂
      rw [run_bind_ok (hexUnit_append hds' _)] at hrun
      split at hrun
      · obtain rfl := congrArg Prod.snd (Except.ok.inj hrun)
        exact ⟨t', h, by simp; omega, rfl⟩
      · contradiction
  · obtain rfl := congrArg Prod.snd (Except.ok.inj hrun)
    exact ⟨t, h, Nat.le_refl _, rfl⟩

/-- An escape leaves the rest of the string. -/
theorem escape_rest (h : IsBody ('\\' :: t))
    (hrun : (escape unicodeText).run (t ++ '"' :: v) = .ok (s, rest)) :
    ∃ u, IsBody u ∧ u.length ≤ t.length ∧ rest = u ++ '"' :: v := by
  cases h with
  | plain _ hescape _ _ => exact absurd rfl hescape
  | letter hd h =>
    obtain rfl := congrArg Prod.snd (Except.ok.inj ((escape_letter hd _).symm.trans hrun))
    exact ⟨_, h, by simp, rfl⟩
  | @unit ds t' _ hds h =>
    rw [List.cons_append, List.append_assoc] at hrun
    obtain ⟨c, t₁, hrun, hpure⟩ := run_bind_eq_ok (r := unicodeEscape) hrun
    obtain ⟨u, hu, hlength, rfl⟩ := unicodeEscape_rest hds h hrun
    obtain rfl := congrArg Prod.snd (Except.ok.inj hpure)
    exact ⟨u, hu, by simp; omega, rfl⟩

theorem exists_of_map_eq_ok {ε : Type} {x : Except ε α} {f : α → β} {b : β}
    (h : x.map f = .ok b) : ∃ a, x = .ok a ∧ f a = b := by
  cases x with
  | error e => contradiction
  | ok a => exact ⟨a, rfl, Except.ok.inj h⟩

/-- A string that is read is taken up to its closing quote. -/
theorem stringBody_rest (h : IsBody t) (hrun : stringBody.run (t ++ '"' :: v) = .ok (s, rest)) :
    rest = v := by
  -- a pair of escapes is one step, so the induction is on the length and not on `h`
  induction hn : t.length using Nat.strongRecOn generalizing t s with
  | ind n ih =>
    replace hrun : untilQuote unicodeText (t ++ '"' :: v) = .ok (s, rest) := hrun
    have hstep : ∀ t', t = '\\' :: t' → rest = v := by
      rintro t' rfl
      cases hread : (escape unicodeText).run (t' ++ '"' :: v) with
      | error problem =>
        rw [List.cons_append, untilQuote_escape_error hread] at hrun
        contradiction
      | ok found =>
        obtain ⟨u, hu, hlength, hrest⟩ := escape_rest h hread
        rw [List.cons_append, untilQuote_escape hread, hrest] at hrun
        obtain ⟨⟨s', rest'⟩, hu', heq⟩ := exists_of_map_eq_ok hrun
        obtain rfl := (Prod.mk.inj heq).2
        exact ih u.length (by simp at hn; omega) hu hu' rfl
    cases h with
    | nil =>
      rw [List.nil_append, untilQuote] at hrun
      exact (congrArg Prod.snd (Except.ok.inj hrun)).symm
    | plain hquote hescape hcontrol h =>
      rw [List.cons_append, untilQuote_char hquote hescape (Char.not_lt.2 hcontrol)] at hrun
      obtain ⟨⟨s', rest'⟩, ht, heq⟩ := exists_of_map_eq_ok hrun
      obtain rfl := (Prod.mk.inj heq).2
      exact ih _ (by simp at hn; omega) h ht rfl
    | letter => exact hstep _ rfl
    | unit => exact hstep _ rfl

/-! ## Values -/

/-- If the reader comes to a value where the text stands as a value, it has taken all of it. -/
def TakesAll (r : Reader α) (t : Text) : Prop :=
  ∀ v, Ends v → ∀ a rest, r.run (t ++ v) = .ok (a, rest) → rest = v

theorem mark_ne {d : Char} (hgap : Text.isGap d = false) (hne : d ≠ c) (t : Text) :
    (mark c).run (d :: t) = .error .malformed := by
  rw [mark, run_peek hgap]
  dsimp only
  rw [if_neg hne]
  rfl

theorem rest_of_pure {b : α} (h : (pure a : Reader α).run v = .ok (b, rest)) : rest = v :=
  (congrArg Prod.snd (Except.ok.inj h)).symm

/-- What is read in the end comes from a value that is read first. -/
theorem exists_of_map_run {g : α → β} {b : β}
    (h : (do return g (← r) : Reader β).run t = .ok (b, rest)) : ∃ a, g a = b := by
  obtain ⟨a, t', -, hpure⟩ := run_bind_eq_ok h
  exact ⟨a, (Prod.mk.inj (Except.ok.inj hpure)).1⟩

theorem TakesAll.map (h : r.TakesAll t) (g : α → β) : (do return g (← r)).TakesAll t := by
  intro v hv b rest hrun
  obtain ⟨a, t', hread, hpure⟩ := run_bind_eq_ok hrun
  obtain rfl := h v hv a t' hread
  exact rest_of_pure hpure

theorem TakesAll.blanks_append (h : r.TakesAll t) (hr : r.SkipsBlanks) (b : Blanks) :
    r.TakesAll (b ++ t) := by
  intro v hv a rest hrun
  rw [List.append_assoc, hr] at hrun
  exact h v hv a rest hrun

/-- Where a value of another kind is expected, none is read. -/
theorem unexpected_ne_ok (expected t : Text) (a : α) (rest : Text) :
    (unexpected expected).run t ≠ .ok (a, rest) := by
  intro hrun
  obtain ⟨c, t', -, hrun⟩ := run_bind_eq_ok hrun
  split at hrun
  case h_1 => contradiction
  case h_2 | h_3 | h_4 =>
    obtain ⟨_, _, -, hrun⟩ := run_bind_eq_ok hrun
    contradiction
  case h_5 =>
    obtain ⟨_, _, -, hrun⟩ := run_bind_eq_ok (run_bind_eq_ok hrun).choose_spec.choose_spec.2
    contradiction
  case h_6 | h_7 => contradiction
  case h_8 =>
    split at hrun
    · obtain ⟨_, _, -, hrun⟩ := run_bind_eq_ok hrun
      contradiction
    · contradiction

theorem null_takesAll (h : IsValue t) : null.TakesAll t := by
  intro v hv a rest hrun
  obtain ⟨c, u, rfl, hgap⟩ := h.exists_cons
  rw [List.cons_append, null, run_peek hgap] at hrun
  split at hrun
  · next heq =>
    obtain rfl := Option.some.inj heq
    rw [← List.cons_append, h.eq_word (u := "null".toList) (by simp) rfl, word_append] at hrun
    exact rest_of_pure hrun
  · exact absurd hrun (unexpected_ne_ok _ _ _ _)

theorem bool_takesAll (h : IsValue t) : bool.TakesAll t := by
  intro v hv a rest hrun
  obtain ⟨c, u, rfl, hgap⟩ := h.exists_cons
  rw [List.cons_append, bool, run_peek hgap] at hrun
  split at hrun
  · next heq =>
    obtain rfl := Option.some.inj heq
    rw [← List.cons_append, h.eq_word (u := "true".toList) (by simp) rfl,
      run_bind_ok (word_append _ v)] at hrun
    exact rest_of_pure hrun
  · next heq =>
    obtain rfl := Option.some.inj heq
    rw [← List.cons_append, h.eq_word (u := "false".toList) (by simp) rfl,
      run_bind_ok (word_append _ v)] at hrun
    exact rest_of_pure hrun
  · exact absurd hrun (unexpected_ne_ok _ _ _ _)

theorem numeral_takesAll (h : IsNumber t) : numeral.TakesAll t := by
  intro v hv n rest hrun
  obtain ⟨parts, hparts⟩ := exists_numeralText .truncated h (outside_continuesNumber hv)
  rw [numeral, run_bind_ok hparts] at hrun
  split at hrun
  · exact rest_of_pure hrun
  · contradiction

theorem natural_takesAll (h : IsValue t) : natural.TakesAll t := by
  intro v hv a rest hrun
  obtain ⟨c, u, rfl, hgap⟩ := h.exists_cons
  rw [List.cons_append, natural, run_peek hgap] at hrun
  dsimp only at hrun
  split at hrun
  · next hc =>
    obtain ⟨n, t', hread, hpure⟩ := run_bind_eq_ok hrun
    obtain rfl := numeral_takesAll (h.isNumber rfl hc) v hv n t' hread
    split at hpure
    · exact rest_of_pure hpure
    · contradiction
    · contradiction
  · exact absurd hrun (unexpected_ne_ok _ _ _ _)

end Reader

/-! ## Variants -/

namespace Variant

open Reader

variable {variants : List (Variant α)} {variant : Variant α}

theorem readName_rest (h : IsBody t) (b : Blanks)
    (hrun : (readName variants).run (b ++ '"' :: (t ++ '"' :: v)) = .ok (variant, rest)) :
    variant ∈ variants ∧ rest = v := by
  rw [readName, run_bind_ok (mark_blanks_cons rfl b _)] at hrun
  obtain ⟨name, t', hbody, hpure⟩ := run_bind_eq_ok hrun
  obtain rfl := stringBody_rest h hbody
  split at hpure
  · next v' hfind =>
    obtain ⟨rfl, rfl⟩ := Prod.mk.inj (Except.ok.inj hpure)
    exact ⟨List.mem_of_find?_eq_some hfind, rfl⟩
  · contradiction

/-- Of an object, a variant without a value is the only field. -/
theorem objectBody_rest (hplain : ∀ variant ∈ variants, ∃ name a, variant = .plain name a)
    {ms : List Member} (hkeys : ∀ m ∈ ms, IsBody m.key) (hvalues : ∀ m ∈ ms, IsValue m.value)
    (b : Blanks) (hrun : (objectBody variants).run
      (b ++ (Text.join [','] (ms.map Member.text) ++ '\x7d' :: v)) = .ok (a, rest)) : rest = v := by
  rw [objectBody, (skipsBlanks_readName variants).bind] at hrun
  cases ms with
  | nil =>
    have hname : (readName variants).run ('\x7d' :: v) = .error .malformed :=
      run_bind_error (mark_ne rfl (by decide) v)
    exact absurd ((run_bind_error hname).symm.trans hrun) (by simp)
  | cons m ms =>
    have hends := (Record.ends_membersAfter ms v).blanks_append m.after
    rw [List.map_cons, Text.join_cons, List.append_assoc, ← Record.membersAfter,
      m.text_append] at hrun
    obtain ⟨variant, t', hname, hrun⟩ := run_bind_eq_ok hrun
    obtain ⟨hmem, rfl⟩ := readName_rest (hkeys m (List.mem_cons_self ..)) m.before hname
    obtain ⟨name, a', rfl⟩ := hplain variant hmem
    rw [run_bind_ok (mark_blanks_cons rfl _ _)] at hrun
    obtain ⟨_, t', hnull, hrest⟩ := run_bind_eq_ok hrun
    have hvalue := (null_takesAll (hvalues m (List.mem_cons_self ..))).blanks_append
      skipsBlanks_null m.beforeValue
    rw [← List.append_assoc] at hnull
    obtain rfl := hvalue _ hends _ _ hnull
    obtain ⟨a'', t'', hpure, hclose⟩ := run_bind_eq_ok hrest
    obtain rfl := rest_of_pure hpure
    rw [(skipsBlanks_mark _).bind] at hclose
    cases ms with
    | nil =>
      have hmark : (mark '\x7d').run (Record.membersAfter [] v) = .ok ((), v) := mark_cons rfl v
      rw [run_bind_ok hmark] at hclose
      exact rest_of_pure hclose
    | cons m' ms =>
      rw [Record.membersAfter_cons, run_bind_error (mark_ne rfl (by decide) _)] at hclose
      contradiction

/-- Variants without values are read from strings, and from objects with one field that is null. -/
theorem read_takesAll (hplain : ∀ variant ∈ variants, ∃ name a, variant = .plain name a)
    (h : IsValue t) : (read variants).TakesAll t := by
  intro v hv a rest hrun
  obtain ⟨c, u, rfl, hgap⟩ := h.exists_cons
  rw [List.cons_append, read, run_peek hgap] at hrun
  split at hrun
  · contradiction
  · next heq =>
    obtain rfl := Option.some.inj heq
    obtain ⟨b, ms, hkeys, hvalues, htext⟩ := h.exists_objectOf rfl
    replace hrun : (objectBody variants).run (u ++ v) = .ok (a, rest) := hrun
    rw [(List.cons.inj htext).2] at hrun
    simp only [List.append_assoc, List.singleton_append] at hrun
    exact objectBody_rest hplain hkeys hvalues b hrun
  · next heq =>
    obtain rfl := Option.some.inj heq
    obtain ⟨s, hs, htext⟩ := h.exists_isBody rfl
    rw [← List.cons_append, htext, List.cons_append, List.append_assoc] at hrun
    obtain ⟨variant, t', hname, hpure⟩ := run_bind_eq_ok hrun
    obtain ⟨hmem, rfl⟩ := readName_rest hs .none hname
    obtain ⟨name, a', rfl⟩ := hplain variant hmem
    exact rest_of_pure hpure
  · contradiction

end Variant

end LegacyGradient.Json
