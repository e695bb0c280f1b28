/-
  LegacyGradient.Proofs.Command.Input

  The input as bytes. In UTF-8 a byte below 128 is a character by itself and part of no other, so
  bytes can be cut at such a byte before or after they are read as a text (`lineText?_append`). Hence
  the input is a text exactly if each of its lines is one, and then these are the lines of the text
  (`lines_textOfBytes?`).
-/
import LegacyGradient.Command.Run
import LegacyGradient.Proofs.Text.Line

namespace LegacyGradient.Command

variable {t : Text} {bytes line x y : List UInt8} {b : UInt8} {c : Char}

/-! ## Bytes in UTF-8 -/

/-- A text is read from its own bytes in UTF-8 only. -/
theorem textOfBytes?_eq_some_iff {input : ByteArray} :
    textOfBytes? input = some t ↔ input = t.utf8Encode := by
  rw [textOfBytes?, Option.map_eq_some_iff]
  constructor
  · rintro ⟨s, hs, rfl⟩
    rw [String.fromUTF8?] at hs
    split at hs
    · obtain rfl := Option.some.inj hs
      rw [String.utf8Encode_toList]
      rfl
    · contradiction
  · rintro rfl
    refine ⟨String.ofList t, ?_, String.toList_ofList⟩
    rw [String.fromUTF8?, dif_pos ByteArray.isValidUTF8_utf8Encode]
    rfl

/-- The text of a line of the input. -/
def lineText? (line : List UInt8) : Option Text := textOfBytes? line.toByteArray

theorem lineText?_eq_some_iff :
    lineText? line = some t ↔ line = t.flatMap String.utf8EncodeChar := by
  rw [lineText?, textOfBytes?_eq_some_iff, List.utf8Encode]
  constructor
  · intro h
    simpa using congrArg (·.data.toList) h
  · rintro rfl
    rfl

theorem lineText?_nil : lineText? [] = some [] := lineText?_eq_some_iff.2 rfl

theorem utf8EncodeChar_inj {d : Char} (h : String.utf8EncodeChar c = String.utf8EncodeChar d) :
    c = d := by
  have hself : ∀ c, lineText? (String.utf8EncodeChar c) = some [c] := fun c =>
    lineText?_eq_some_iff.2 (List.flatMap_singleton ..).symm
  exact (List.cons.inj (Option.some.inj ((hself c).symm.trans (h ▸ hself d)))).1

/-- A byte below 128 stands for a character by itself. -/
theorem utf8EncodeChar_of_lt (h : b ∈ String.utf8EncodeChar c) (hb : b < 128) :
    String.utf8EncodeChar c = [b] := by
  have hlarge : ∀ n : Nat, 128 ≤ n → n < 256 → b ≠ UInt8.ofNat n := by
    rintro n hlow hhigh rfl
    rw [UInt8.lt_iff_toNat_lt, UInt8.toNat_ofNat_of_lt' hhigh] at hb
    exact absurd hb (Nat.not_lt.2 hlow)
  rw [String.utf8EncodeChar] at h ⊢
  split at h
  · next hle => rw [if_pos hle, List.mem_singleton.1 h]
  -- all bytes of a longer sequence are marked
  · split at h
    · simp only [List.mem_cons, List.not_mem_nil, or_false] at h
      rcases h with h | h <;> exact absurd h (hlarge _ (by omega) (by omega))
    · split at h
      · simp only [List.mem_cons, List.not_mem_nil, or_false] at h
        rcases h with h | h | h <;> exact absurd h (hlarge _ (by omega) (by omega))
      · simp only [List.mem_cons, List.not_mem_nil, or_false] at h
        rcases h with h | h | h | h <;> exact absurd h (hlarge _ (by omega) (by omega))

/-- Where its bytes have one below 128, a text has the character of that byte. -/
theorem exists_append_of_utf8 (hc : String.utf8EncodeChar c = [b]) (hb : b < 128)
    (h : t.flatMap String.utf8EncodeChar = x ++ b :: y) :
    ∃ s u, t = s ++ c :: u ∧ x = s.flatMap String.utf8EncodeChar ∧
      y = u.flatMap String.utf8EncodeChar := by
  induction t generalizing x with
  | nil => simp at h
  | cons d t ih =>
    rw [List.flatMap_cons, List.append_eq_append_iff] at h
    -- the byte stands behind the bytes of the first character, or not
    rcases h with ⟨x, rfl, hrest⟩ | ⟨z, hd, hrest⟩
    · obtain ⟨s, u, rfl, rfl, rfl⟩ := ih hrest
      exact ⟨d :: s, u, rfl, rfl, rfl⟩
    · cases z with
      | nil =>
        -- the byte begins the next character
        obtain ⟨s, u, rfl, hs, rfl⟩ := ih (x := []) hrest.symm
        refine ⟨d :: s, u, rfl, ?_, rfl⟩
        rw [List.flatMap_cons, ← hs, List.append_nil, hd, List.append_nil]
      | cons b' z =>
        obtain ⟨rfl, rfl⟩ := List.cons.inj hrest
        -- a byte below 128 among those of a character is all of it
        have hself : String.utf8EncodeChar d = [b] :=
          utf8EncodeChar_of_lt (by rw [hd]; simp) hb
        obtain ⟨rfl, rfl⟩ : x = [] ∧ z = [] := by
          rw [hself] at hd
          simpa [List.singleton_eq_append_iff] using hd
        exact ⟨[], t, by rw [utf8EncodeChar_inj (hself.trans hc.symm)]; rfl, rfl, rfl⟩

/-- Bytes are cut at a byte below 128 like their text at its character. -/
theorem lineText?_append (hc : String.utf8EncodeChar c = [b]) (hb : b < 128)
    (x y : List UInt8) :
    lineText? (x ++ b :: y) = do
      let s ← lineText? x
      let u ← lineText? y
      return s ++ c :: u := by
  apply Option.ext
  intro t
  simp only [Option.bind_eq_bind, Option.bind_eq_some_iff, Option.pure_def, Option.some.injEq,
    lineText?_eq_some_iff]
  constructor
  · intro h
    obtain ⟨s, u, rfl, hx, hy⟩ := exists_append_of_utf8 hc hb h.symm
    exact ⟨s, hx, u, hy, rfl⟩
  · rintro ⟨s, rfl, u, rfl, rfl⟩
    rw [List.flatMap_append, List.flatMap_cons, hc]
    rfl

theorem not_mem_of_lineText? (h : lineText? line = some t) (hc : String.utf8EncodeChar c = [b])
    (hb : b ∉ line) : c ∉ t := by
  intro hmem
  rw [lineText?_eq_some_iff.1 h] at hb
  exact hb (List.mem_flatMap.2 ⟨c, hmem, by simp [hc]⟩)

/-! ## Lines of bytes -/

/-- The lines of the input, as bytes. -/
def inputLines (input : ByteArray) : List (List UInt8) := linesBy 10 13 input.data.toList

theorem lineText?_append_return (x : List UInt8) :
    lineText? (x ++ [13]) = (lineText? x).map (· ++ ['\r']) := by
  have hreturn : String.utf8EncodeChar '\r' = [13] := rfl
  rw [lineText?_append hreturn (by decide), lineText?_nil]
  cases lineText? x <;> rfl

/-- The carriage return of a line end may be left out before or after the line is read. -/
theorem lineText?_dropEnd (line : List UInt8) :
    lineText? (dropEnd 13 line) = (lineText? line).map (dropEnd '\r') := by
  by_cases hend : line.getLast? = some 13
  · obtain ⟨x, rfl⟩ := List.getLast?_eq_some_iff.1 hend
    rw [dropEnd_append_self, lineText?_append_return, Option.map_map]
    cases lineText? x with
    | none => rfl
    | some t => exact congrArg some (dropEnd_append_self '\r' t).symm
  · rw [dropEnd_of_getLast?_ne hend]
    cases hline : lineText? line with
    | none => rfl
    | some t =>
      have hend' : t.getLast? ≠ some '\r' := by
        intro ht
        obtain ⟨s, rfl⟩ := List.getLast?_eq_some_iff.1 ht
        rw [lineText?_eq_some_iff.1 hline, List.flatMap_append] at hend
        exact hend List.getLast?_concat
      exact congrArg some (dropEnd_of_getLast?_ne hend').symm

/-- The lines of the input as a text are the texts of its lines. So the input is a text exactly if
each of its lines is one. -/
theorem lines_textOfBytes? (input : ByteArray) :
    (textOfBytes? input).map Text.lines = (inputLines input).mapM lineText? := by
  have hbytes : textOfBytes? input = lineText? input.data.toList := by
    rw [lineText?]
    congr 1
    apply ByteArray.ext
    simp
  rw [hbytes, inputLines]
  generalize input.data.toList = bytes
  have hfeed : String.utf8EncodeChar '\n' = [10] := rfl
  -- at each line feed the bytes are cut first on one side, and read first on the other
  induction bytes using line_induction (10 : UInt8) with
  | last bytes h =>
    rw [linesBy_of_not_mem h]
    by_cases hempty : bytes = []
    · rw [if_pos hempty, hempty, lineText?_nil]
      rfl
    · rw [if_neg hempty]
      cases hbytes : lineText? bytes with
      | none => simp [hbytes]
      | some t =>
        have hne : t ≠ [] := by
          rintro rfl
          exact hempty (lineText?_eq_some_iff.1 hbytes)
        rw [Option.map_some, Text.lines_of_not_mem (not_mem_of_lineText? hbytes hfeed h), if_neg hne]
        simp [hbytes]
  | line line rest h ih =>
    rw [linesBy_line h, List.mapM_cons, ← ih, lineText?_dropEnd, lineText?_append hfeed (by decide)]
    cases hline : lineText? line with
    | none => rfl
    | some s =>
      cases lineText? rest with
      | none => rfl
      | some u => exact congrArg some (Text.lines_line (not_mem_of_lineText? hline hfeed h) u)

theorem mapM_eq_some_iff {α β : Type} {f : α → Option β} {as : List α} {bs : List β} :
    as.mapM f = some bs ↔ as.map f = bs.map some := by
  induction as generalizing bs with
  | nil => cases bs <;> simp
  | cons a as ih =>
    cases bs with
    | nil => simp [List.mapM_cons, Option.bind_eq_some_iff]
    | cons b bs => simp [List.mapM_cons, Option.bind_eq_some_iff, ih]

theorem isSome_mapM_iff {α β : Type} {f : α → Option β} {as : List α} :
    (as.mapM f).isSome ↔ ∀ a ∈ as, (f a).isSome := by
  induction as with
  | nil => simp
  | cons a as ih =>
    rw [List.forall_mem_cons, ← ih, List.mapM_cons]
    cases f a with
    | none => simp
    | some b => cases as.mapM f <;> simp

/-- The input is a text exactly if each of its lines is one. -/
theorem isSome_textOfBytes?_iff (input : ByteArray) :
    (textOfBytes? input).isSome ↔ ∀ line ∈ inputLines input, (lineText? line).isSome := by
  rw [← isSome_mapM_iff, ← lines_textOfBytes?, Option.isSome_map]

theorem map_lineText?_of_textOfBytes? {input : ByteArray} (h : textOfBytes? input = some t) :
    (inputLines input).map lineText? = t.lines.map some := by
  rw [← mapM_eq_some_iff, ← lines_textOfBytes?, h]
  rfl

end LegacyGradient.Command
