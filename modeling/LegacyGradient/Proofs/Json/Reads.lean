/-
  LegacyGradient.Proofs.Json.Reads

  What readers make of values as they are written. A value in a JSON text ends before a blank, a
  comma, a closing bracket or the end of the text. A reader gives an outcome for a text if it comes
  to that outcome wherever the text stands as a value (`Gives`). Strings are read as they were,
  whatever characters they hold and however these are spelled, and so are arrays of values that are
  (`list_gives`).
-/
import LegacyGradient.Json.Compact
import LegacyGradient.Json.Value
import LegacyGradient.Proofs.Json.Grammar
import LegacyGradient.Proofs.Text.Cut
import LegacyGradient.Proofs.Text.Outside

namespace LegacyGradient.Json

open Text (Outside)

variable {α β : Type} {r : Reader α} {f : α → Reader β} {t v rest : Text} {c d : Char} {a : α}
  {outcome : Except Problem α}

/-! ## Blanks -/

namespace Blanks

theorem isGap_of_mem (b : Blanks) : ∀ c ∈ b.val, Text.isGap c = true := by
  intro c hc
  have hmem := b.property c hc
  simp only [List.mem_cons, List.not_mem_nil, or_false] at hmem
  rcases hmem with rfl | rfl | rfl | rfl <;> rfl

theorem dropWhile_append (b : Blanks) (t : Text) :
    (b ++ t).dropWhile Text.isGap = t.dropWhile Text.isGap :=
  List.dropWhile_append_of_pos b.isGap_of_mem

end Blanks

/-! ## Values in a text -/

/-- The end of a value: nothing, or a blank, a comma or a closing bracket. -/
def Ends (v : Text) : Prop :=
  Outside (fun c => !(Text.isGap c || c == ',' || c == ']' || c == '\x7d')) v

theorem Ends.outside {p : Char → Bool} (hv : Ends v)
    (hblank : ∀ c, Text.isGap c = true → p c = false)
    (hp : p ',' = false ∧ p ']' = false ∧ p '\x7d' = false) : Outside p v := by
  intro c hc
  have hend := hv c hc
  simp only [Bool.not_eq_false', Bool.or_eq_true, beq_iff_eq] at hend
  rcases hend with ((h | rfl) | rfl) | rfl
  · exact hblank c h
  · exact hp.1
  · exact hp.2.1
  · exact hp.2.2

/-- Blanks may stand between a value and what ends it. -/
theorem Ends.blanks_append (hv : Ends v) (b : Blanks) : Ends (b ++ v) := by
  refine Outside.append (fun c hc => ?_) hv
  simp [b.isGap_of_mem c (List.mem_of_mem_head? hc)]

/-- The text begins as a value does, with no blank and no closing bracket. -/
def Begins (t : Text) : Prop := ∃ c u, t = c :: u ∧ Text.isGap c = false ∧ c ≠ ']'

namespace Reader

/-- The reader comes to this outcome for a text that stands as a value, and takes all of it. -/
def Gives (r : Reader α) (t : Text) (outcome : Except Problem α) : Prop :=
  ∀ v, Ends v → r.run (t ++ v) = outcome.map fun a => (a, v)

/-! ## Steps -/

theorem run_bind_ok (h : r.run t = .ok (a, rest)) : (r >>= f).run t = (f a).run rest := by
  show (Reader.bind r f).run t = _
  simp only [Reader.bind, h]

theorem run_bind_error {problem : Problem} (h : r.run t = .error problem) :
    (r >>= f).run t = .error problem := by
  show (Reader.bind r f).run t = _
  simp only [Reader.bind, h]

theorem run_bind_eq_ok {b : β} (h : (r >>= f).run t = .ok (b, rest)) :
    ∃ a t', r.run t = .ok (a, t') ∧ (f a).run t' = .ok (b, rest) := by
  cases hr : r.run t with
  | error problem =>
    rw [run_bind_error hr] at h
    contradiction
  | ok found =>
    rw [run_bind_ok hr] at h
    exact ⟨found.1, found.2, rfl, h⟩

/-- A value that is read and changed without looking further. -/
theorem Gives.map (h : r.Gives t outcome) (g : α → β) :
    (do return g (← r)).Gives t (outcome.map g) := by
  intro v hv
  cases houtcome : outcome with
  | error problem =>
    rw [houtcome] at h
    exact run_bind_error (h v hv)
  | ok a =>
    rw [houtcome] at h
    exact run_bind_ok (h v hv)

theorem peek_cons (hc : Text.isGap c = false) (t : Text) :
    peek.run (c :: t) = .ok (some c, c :: t) := by
  show Except.ok _ = _
  rw [Text.dropWhile_outside (Text.outside_cons.2 hc)]
  rfl

theorem run_peek (hc : Text.isGap c = false) {f : Option Char → Reader β} (t : Text) :
    (peek >>= f).run (c :: t) = (f (some c)).run (c :: t) :=
  run_bind_ok (peek_cons hc t)

theorem run_skip1 {f : Unit → Reader β} (c : Char) (t : Text) :
    (skip1 >>= f).run (c :: t) = (f ()).run t := rfl

theorem word_append (w v : Text) : (word w).run (w ++ v) = .ok ((), v) := by
  induction w with
  | nil => rfl
  | cons c w ih =>
    have hstep : (word (c :: w)).run (c :: (w ++ v)) =
        (if c = c then do skip1; word w else fail .malformed : Reader Unit).run (c :: (w ++ v)) :=
      rfl
    rw [List.cons_append, hstep, if_pos rfl]
    exact ih

theorem mark_cons (hc : Text.isGap c = false) (v : Text) : (mark c).run (c :: v) = .ok ((), v) := by
  rw [mark, run_peek hc]
  dsimp only
  rw [if_pos rfl]
  rfl

/-- Blanks may stand behind the value of a text. -/
theorem whole_append_blanks (h : r.Gives t outcome) (b : Blanks) : whole r (t ++ b) = outcome := by
  have hblanks : Ends (b : Text) := by
    have hnil : Ends [] := Text.outside_nil
    simpa using hnil.blanks_append b
  have hdrop : (b : Text).dropWhile Text.isGap = [] := by
    simpa using b.dropWhile_append []
  rw [whole, h b hblanks]
  cases outcome with
  | error problem => rfl
  | ok a =>
    simp only [Except.map, hdrop]
    rfl

theorem whole_of_gives (h : r.Gives t outcome) : whole r t = outcome := by
  simpa [Blanks.none] using whole_append_blanks h .none

/-! ## Blanks before a value -/

/-- The reader passes over blanks first. -/
def SkipsBlanks (r : Reader α) : Prop := ∀ (b : Blanks) (t : Text), r.run (b ++ t) = r.run t

theorem skipsBlanks_peek : peek.SkipsBlanks := by
  intro b t
  show Except.ok _ = Except.ok _
  rw [b.dropWhile_append]

theorem SkipsBlanks.bind (h : r.SkipsBlanks) (f : α → Reader β) : (r >>= f).SkipsBlanks := by
  intro b t
  cases hr : r.run t with
  | error problem => rw [run_bind_error hr, run_bind_error ((h b t).trans hr)]
  | ok found => rw [run_bind_ok hr, run_bind_ok ((h b t).trans hr)]

/-- Blanks may stand before the value of a text. -/
theorem SkipsBlanks.whole (h : r.SkipsBlanks) (b : Blanks) (t : Text) :
    whole r (b ++ t) = whole r t := by
  rw [Reader.whole, h b t, Reader.whole]

theorem skipsBlanks_mark (c : Char) : (mark c).SkipsBlanks := skipsBlanks_peek.bind _

theorem Gives.blanks_append (h : r.Gives t outcome) (hr : r.SkipsBlanks) (b : Blanks) :
    r.Gives (b ++ t) outcome := by
  intro v hv
  rw [List.append_assoc, hr]
  exact h v hv

/-- A mark is found behind blanks. -/
theorem mark_blanks_cons (hc : Text.isGap c = false) (b : Blanks) (v : Text) :
    (mark c).run (b ++ c :: v) = .ok ((), v) := by
  rw [skipsBlanks_mark, mark_cons hc]

/-! ## Strings -/

/-- A character that an escape stands for, as the text it adds to a string. -/
def unicodeText : Reader Text := do return [← unicodeEscape]

theorem untilQuote_escape {s : Text} (h : (escape unicodeText).run t = .ok (s, rest)) :
    untilQuote unicodeText ('\\' :: t) =
      (untilQuote unicodeText rest).map fun (s', rest) => (s ++ s', rest) := by
  rw [untilQuote]
  split
  · next problem hproblem =>
    rw [h] at hproblem
    contradiction
  · next s' rest' hread =>
    obtain ⟨rfl, rfl⟩ := Prod.mk.inj (Except.ok.inj (h.symm.trans hread))
    rfl

theorem untilQuote_escape_error {problem : Problem}
    (h : (escape unicodeText).run t = .error problem) :
    untilQuote unicodeText ('\\' :: t) = .error problem := by
  rw [untilQuote]
  split
  · next hread =>
    obtain rfl := Except.error.inj (h.symm.trans hread)
    rfl
  · next hread =>
    rw [h] at hread
    contradiction

theorem untilQuote_char (hquote : c ≠ '"') (hescape : c ≠ '\\') (hcontrol : ¬ c < ' ') (t : Text) :
    untilQuote unicodeText (c :: t) =
      (untilQuote unicodeText t).map fun (s, rest) => (c :: s, rest) := by
  rw [untilQuote, if_neg hcontrol]
  · exact hquote
  · exact hescape

theorem shortEscape?_letter (h : (d, c) ∈ letterEscapes) :
    d ≠ 'u' ∧ shortEscape? d = some c := by
  have hletters : ∀ p ∈ letterEscapes, p.1 ≠ 'u' ∧ shortEscape? p.1 = some p.2 := by decide
  exact hletters _ h

theorem escape_letter (h : (d, c) ∈ letterEscapes) (v : Text) :
    (escape unicodeText).run (d :: v) = .ok ([c], v) := by
  obtain ⟨hd, hshort⟩ := shortEscape?_letter h
  rw [escape]
  refine (run_bind_ok (a := some d) rfl).trans ?_
  split
  · contradiction
  · next heq => exact absurd (Option.some.inj heq) hd
  · next heq =>
    obtain rfl := Option.some.inj heq
    rw [hshort]
    rfl

/-! ### Escapes in digits -/

theorem hexDigitValue?_of_hexDigit {n : Nat} (h : HexDigit c n) :
    Text.hexDigitValue? c = some n := by
  have hlower : ∀ i : Fin 16, Text.hexDigitValue? ("0123456789abcdef".toList[i]) = some i.val := by
    decide
  have hupper : ∀ i : Fin 16, Text.hexDigitValue? ("0123456789ABCDEF".toList[i]) = some i.val := by
    decide
  rcases h with h | h
  · obtain ⟨hn, rfl⟩ := List.getElem?_eq_some_iff.1 h
    exact hlower ⟨n, hn⟩
  · obtain ⟨hn, rfl⟩ := List.getElem?_eq_some_iff.1 h
    exact hupper ⟨n, hn⟩

theorem hexUnit_append {ds : Text} {n : Nat} (h : HexUnit ds n) (v : Text) :
    hexUnit.run (ds ++ v) = .ok (n, v) := by
  obtain @⟨_, _, _, _, i, j, k, l, ha, hb, hc, hd⟩ := h
  have hvalue : 16 * (16 * (16 * (16 * 0 + i) + j) + k) + l =
      0x1000 * i + 0x100 * j + 0x10 * k + l := by omega
  simp only [hexUnit, List.cons_append, List.nil_append, hexUnit?, List.mapM_cons, List.mapM_nil,
    hexDigitValue?_of_hexDigit ha, hexDigitValue?_of_hexDigit hb, hexDigitValue?_of_hexDigit hc,
    hexDigitValue?_of_hexDigit hd, ← hvalue]
  rfl

/-- The code point of a character is no half of a surrogate pair. -/
theorem unicodeEscape_unit {ds : Text} (h : HexUnit ds c.toNat) (v : Text) :
    unicodeEscape.run (ds ++ v) = .ok (c, v) := by
  have hvalid : c.toNat < 0xD800 ∨ 0xDFFF < c.toNat := c.valid.imp_right And.left
  have htrailing : ¬ IsTrailing c.toNat := fun h => by
    obtain ⟨hle, hge⟩ := h
    omega
  have hleading : ¬ IsLeading c.toNat := fun h => by
    obtain ⟨hle, hge⟩ := h
    omega
  rw [unicodeEscape, run_bind_ok (hexUnit_append h v), if_neg htrailing, if_neg hleading,
    Char.ofNat_toNat]
  rfl

theorem unicodeEscape_pair {ds ds' : Text} {i j : Nat} (hi : i < 0x400) (hj : j < 0x400)
    (hc : c.toNat = 0x10000 + i * 0x400 + j) (hleading : HexUnit ds (0xD800 + i))
    (htrailing : HexUnit ds' (0xDC00 + j)) (v : Text) :
    unicodeEscape.run (ds ++ '\\' :: 'u' :: (ds' ++ v)) = .ok (c, v) := by
  have hfirst : ¬ IsTrailing (0xD800 + i) := fun h => by
    obtain ⟨hle, hge⟩ := h
    omega
  have hcode : 0x10000 + (0xD800 + i - 0xD800) * 0x400 + (0xDC00 + j - 0xDC00) = c.toNat := by
    omega
  have hword : (word ['\\', 'u']).run ('\\' :: 'u' :: (ds' ++ v)) = .ok ((), ds' ++ v) :=
    word_append ['\\', 'u'] _
  rw [unicodeEscape, run_bind_ok (hexUnit_append hleading _), if_neg hfirst,
    if_pos ⟨by omega, by omega⟩, run_bind_ok hword, run_bind_ok (hexUnit_append htrailing v),
    if_pos ⟨by omega, by omega⟩, hcode, Char.ofNat_toNat]
  rfl

theorem escape_digits (h : unicodeEscape.run t = .ok (c, rest)) :
    (escape unicodeText).run ('u' :: t) = .ok ([c], rest) :=
  run_bind_ok h

/-! ### Characters and their spellings -/

/-- Every character of a string is read, however it is spelled. -/
theorem untilQuote_spells (h : Spells c t) (v : Text) :
    untilQuote unicodeText (t ++ v) =
      (untilQuote unicodeText v).map fun (s, rest) => (c :: s, rest) := by
  cases h with
  | plain hquote hescape hcontrol => exact untilQuote_char hquote hescape (Char.not_lt.2 hcontrol) v
  | letter h => exact untilQuote_escape (escape_letter h v)
  | unit h => exact untilQuote_escape (escape_digits (unicodeEscape_unit h v))
  | pair hi hj hc hleading htrailing =>
    have hread := unicodeEscape_pair hi hj hc hleading htrailing v
    rw [List.cons_append, List.cons_append, List.append_assoc]
    exact untilQuote_escape (escape_digits hread)

/-- A string is read, however its characters are spelled. -/
theorem stringBody_spells {s : Text} (h : SpellsText s t) (v : Text) :
    stringBody.run (t ++ '"' :: v) = .ok (s, v) := by
  show untilQuote unicodeText _ = _
  induction h with
  | nil => rw [List.nil_append, untilQuote]
  | cons hc _ ih =>
    rw [List.append_assoc, untilQuote_spells hc, ih]
    rfl

theorem hexDigit_digitChar {n : Nat} (hn : n < 16) : HexDigit (Nat.digitChar n) n := by
  unfold HexDigit
  decide +revert

theorem hexUnit_control {n : Nat} (hn : n < 32) :
    HexUnit ['0', '0', Nat.digitChar (n / 16), Nat.digitChar (n % 16)] n := by
  have hunit := HexUnit.intro (hexDigit_digitChar (n := 0) (by decide))
    (hexDigit_digitChar (n := 0) (by decide)) (hexDigit_digitChar (n := n / 16) (by omega))
    (hexDigit_digitChar (n := n % 16) (by omega))
  have hvalue : 0x1000 * 0 + 0x100 * 0 + 0x10 * (n / 16) + n % 16 = n := by omega
  rwa [hvalue] at hunit

/-- A character is written by a letter, by digits or as it is. -/
theorem spells_stringChar (c : Char) : Spells c (stringChar c) := by
  by_cases hshort : c ∈ ['"', '\\', '\x08', '\t', '\n', '\x0c', '\r']
  · simp only [List.mem_cons, List.not_mem_nil, or_false] at hshort
    rcases hshort with rfl | rfl | rfl | rfl | rfl | rfl | rfl <;> exact .letter (by decide)
  · simp only [List.mem_cons, List.not_mem_nil, or_false, not_or] at hshort
    obtain ⟨hquote, hescape, h₁, h₂, h₃, h₄, h₅⟩ := hshort
    rw [stringChar, if_neg hquote, if_neg hescape, if_neg h₁, if_neg h₂, if_neg h₃, if_neg h₄,
      if_neg h₅]
    split
    · next hcontrol => exact .unit (hexUnit_control hcontrol)
    · next hcontrol => exact .plain hquote hescape (Char.not_lt.1 hcontrol)

theorem spellsText_flatMap (s : Text) : SpellsText s (s.flatMap stringChar) := by
  induction s with
  | nil => exact .nil
  | cons c s ih => exact .cons (spells_stringChar c) ih

theorem stringBody_append (s v : Text) :
    stringBody.run (s.flatMap stringChar ++ '"' :: v) = .ok (s, v) :=
  stringBody_spells (spellsText_flatMap s) v

theorem begins_stringText (s : Text) : Begins (stringText s) :=
  ⟨'"', s.flatMap stringChar ++ ['"'], by simp [stringText], rfl, by decide⟩

theorem begins_string (s : Text) :
    ∃ c u, stringText s = c :: u ∧ Text.isGap c = false ∧ c ≠ 'n' :=
  ⟨'"', s.flatMap stringChar ++ ['"'], by simp [stringText], rfl, by decide⟩

theorem stringText_append (s v : Text) :
    stringText s ++ v = '"' :: (s.flatMap stringChar ++ '"' :: v) := by
  simp [stringText]

/-- A string is read as it was, whatever characters it holds. -/
theorem string_gives (s : Text) : string.Gives (stringText s) (.ok s) := by
  intro v _
  rw [stringText_append, string, run_peek rfl]
  exact stringBody_append s v

/-- A value that may be absent is read as it was if it is read so where it is present. -/
theorem optional_gives {write : α → Text} (h : ∀ a, r.Gives (write a) (.ok a))
    (hbegins : ∀ a, ∃ c u, write a = c :: u ∧ Text.isGap c = false ∧ c ≠ 'n') (o : Option α) :
    r.optional.Gives (optionalText write o) (.ok o) := by
  intro v hv
  cases o with
  | none =>
    rw [optionalText, optional]
    exact (run_peek rfl _).trans (run_bind_ok (word_append _ v))
  | some a =>
    obtain ⟨c, u, hwrite, hgap, hn⟩ := hbegins a
    have hread := h a v hv
    rw [hwrite] at hread
    rw [optionalText, optional, hwrite, List.cons_append, run_peek hgap]
    split
    · next heq => exact absurd (Option.some.inj heq) hn
    · exact run_bind_ok hread

/-! ## Words -/

theorem skipsBlanks_null : null.SkipsBlanks := skipsBlanks_peek.bind _

theorem skipsBlanks_bool : bool.SkipsBlanks := skipsBlanks_peek.bind _

theorem bool_gives (b : Bool) : bool.Gives (boolText b) (.ok b) := by
  intro v _
  cases b with
  | false => exact (run_peek (c := 'f') rfl _).trans (run_bind_ok (word_append _ v))
  | true => exact (run_peek (c := 't') rfl _).trans (run_bind_ok (word_append _ v))

theorem null_gives : null.Gives "null".toList (.ok ()) := by
  intro v _
  exact (run_peek (c := 'n') rfl _).trans (word_append _ v)

/-! ## Arrays -/

theorem hasElement_first (hgap : Text.isGap c = false) (hclose : c ≠ ']') (t : Text) :
    (hasElement true).run (c :: t) = .ok (true, c :: t) := by
  rw [hasElement, run_peek hgap]
  split
  · contradiction
  · next heq => exact absurd (Option.some.inj heq) hclose
  · rfl

theorem afterComma_cons (hgap : Text.isGap c = false) (hclose : c ≠ ']') (t : Text) :
    (afterComma r).run (c :: t) = r.run (c :: t) := by
  rw [afterComma, run_peek hgap]
  split
  · contradiction
  · next heq => exact absurd (Option.some.inj heq) hclose
  · rfl

theorem moreElements_close (r : Reader α) (v : Text) :
    moreElements r (']' :: v) = .ok ([], ']' :: v) := by
  rw [moreElements]
  rfl

theorem moreElements_comma (h : (afterComma r).run t = .ok (a, rest)) :
    moreElements r (',' :: t) =
      (moreElements r rest).map fun (as, rest) => (a :: as, rest) := by
  rw [moreElements]
  dsimp only [List.dropWhile]
  split
  · contradiction
  · next c u heq =>
    obtain ⟨rfl, rfl⟩ := List.cons.inj heq
    rw [if_neg (by decide), if_pos rfl]
    split
    · next hproblem =>
      rw [h] at hproblem
      contradiction
    · next a' rest' hread =>
      obtain ⟨rfl, rfl⟩ := Prod.mk.inj (Except.ok.inj (h.symm.trans hread))
      rfl

section Arrays

variable {write : α → Text} {as : List α}

theorem ends_elements (ts : List Text) (v : Text) :
    Ends (ts.flatMap ([','] ++ ·) ++ ']' :: v) := by
  cases ts with
  | nil => exact Text.outside_cons.2 rfl
  | cons t ts => exact Text.outside_cons.2 rfl

theorem moreElements_flatMap (h : ∀ a ∈ as, r.Gives (write a) (.ok a))
    (hbegins : ∀ a ∈ as, Begins (write a)) (v : Text) :
    moreElements r ((as.map write).flatMap ([','] ++ ·) ++ ']' :: v) = .ok (as, ']' :: v) := by
  induction as with
  | nil => exact moreElements_close r v
  | cons a as ih =>
    obtain ⟨c, u, hwrite, hgap, hclose⟩ := hbegins a (by simp)
    have hread : (afterComma r).run (write a ++ ((as.map write).flatMap ([','] ++ ·) ++ ']' :: v)) =
        .ok (a, (as.map write).flatMap ([','] ++ ·) ++ ']' :: v) := by
      have hvalue := h a (by simp) _ (ends_elements (as.map write) v)
      rw [hwrite, List.cons_append] at hvalue ⊢
      rw [afterComma_cons hgap hclose]
      exact hvalue
    have hmore := ih (fun a' ha' => h a' (by simp [ha'])) fun a' ha' => hbegins a' (by simp [ha'])
    rw [List.map_cons, List.flatMap_cons, List.append_assoc, List.append_assoc,
      List.singleton_append, moreElements_comma hread, hmore]
    rfl

/-- The elements of an array, read after the opening bracket. -/
def listBody (element : Reader α) : Reader (List α) := do
  if ← hasElement true then do
    let a ← element
    let as ← ⟨moreElements element, length_moreElements_le⟩
    mark ']'
    return a :: as
  else do
    mark ']'
    return []

theorem list_cons (r : Reader α) (t : Text) : r.list.run ('[' :: t) = (listBody r).run t := by
  rw [list, run_peek rfl]
  rfl

/-- An array is read as it was if each of its elements is. -/
theorem list_gives (as : List α) (h : ∀ a ∈ as, r.Gives (write a) (.ok a))
    (hbegins : ∀ a ∈ as, Begins (write a)) :
    r.list.Gives (arrayText (as.map write)) (.ok as) := by
  intro v _
  have htext : arrayText (as.map write) ++ v =
      '[' :: (Text.join [','] (as.map write) ++ ']' :: v) := by simp [arrayText]
  rw [htext, list_cons, listBody]
  cases as with
  | nil =>
    have hnone : (hasElement true).run (']' :: v) = .ok (false, ']' :: v) := rfl
    exact (run_bind_ok hnone).trans (run_bind_ok (mark_cons rfl v))
  | cons a as =>
    have hmore := moreElements_flatMap (fun a' ha' => h a' (List.mem_cons_of_mem a ha'))
      (fun a' ha' => hbegins a' (List.mem_cons_of_mem a ha')) v
    obtain ⟨c, u, hwrite, hgap, hclose⟩ := hbegins a (by simp)
    have hread := h a (by simp) _ (ends_elements (as.map write) v)
    rw [List.map_cons, Text.join_cons, List.append_assoc, hwrite, List.cons_append,
      run_bind_ok (hasElement_first hgap hclose _), if_pos rfl, ← List.cons_append, ← hwrite,
      run_bind_ok hread]
    exact (run_bind_ok hmore).trans (run_bind_ok (mark_cons rfl v))

end Arrays

end Reader

end LegacyGradient.Json
