/-
  LegacyGradient.Proofs.Gradient.Stops

  Written color stops and the two ways in which they are read. In the first pass a stop is matched
  where it stands in the list (`spaced_text`), and whatever is matched there is a written stop
  (`exists_text_eq`). In the second pass the stop is a piece of its own, and the color and the
  length that it is read into are those that were written (`ofPiece_text`).
-/
import LegacyGradient.Proofs.Gradient.Written
import LegacyGradient.Proofs.Token.Color
import LegacyGradient.Proofs.Token.Length

namespace LegacyGradient

open Length (isStopEnd)
open Text (Outside)

/-! ## Blanks -/

theorem Gap.isBlank (g : Gap) : ∀ c ∈ g.text, Text.isBlank c = true :=
  fun c hc => Text.isBlank_of_isGap (g.isGap c hc)

/-- The characters of a token do not come first in blanks. -/
theorem Gap.outside (g : Gap) {p : Char → Bool} (hp : ∀ c, p c = true → Text.isBlank c = false) :
    Outside p g.text :=
  Text.outside_of_isGap hp g.isGap

theorem Gap.scan (g : Gap) {v : Text} (hv : Outside Text.isGap v) :
    Lexeme.gap (g.text ++ v) = some (g.text, v) :=
  Lexeme.run_eq_some_iff.2 ⟨rfl, g.isGap, hv⟩

/-- Two runs of blanks are one. -/
def Gap.append (g g' : Gap) : Gap where
  text := g.text ++ g'.text
  isGap := fun c hc => (List.mem_append.1 hc).elim (g.isGap c) (g'.isGap c)

theorem Gap.sealed (g : Gap) : Text.SealedFrom 0 g.text :=
  Text.sealedFrom_of_class rfl rfl rfl g.isGap

theorem Gap.eq_nil_of_outside (g : Gap) {v : Text} (h : Outside Text.isGap (g.text ++ v)) :
    g.text = [] := by
  cases hg : g.text with
  | nil => rfl
  | cons c t =>
    have hc := g.isGap c (by simp [hg])
    rw [hg, List.cons_append, Text.outside_cons, hc] at h
    contradiction

theorem exists_gap_of_scan {t m rest : Text} (h : Lexeme.gap t = some (m, rest)) :
    ∃ g : Gap, g.text = m ∧ t = m ++ rest ∧ Outside Text.isGap rest := by
  obtain ⟨ht, hm, hrest⟩ := Lexeme.run_eq_some_iff.1 h
  exact ⟨⟨m, hm⟩, rfl, ht, hrest⟩

/-- A color stop in a list, with the blanks around it. -/
def Stop.spaced : Lexeme := .gap ++ Stop.lexeme ++ .gap

namespace WrittenStop

variable {w : WrittenStop} {t m rest v : Text}

/-! ## The color of a stop -/

/-- A length begins with a character of a number. -/
theorem outside_length (w : WrittenStop) {p : Char → Bool}
    (hp : ∀ l ∈ w.length, ∀ c ∈ l.head?, Number.isNumeric c = true → p c = false) :
    Outside p (w.length.getD []) := by
  cases hl : w.length with
  | none => exact Text.outside_nil
  | some l =>
    obtain ⟨c, l', rfl, hc⟩ := Length.head_isNumeric (w.length_scan l hl)
    exact Text.outside_cons.2 (hp _ hl c rfl hc)

theorem outside_isLower_length (w : WrittenStop) : Outside Char.isLower (w.length.getD []) :=
  w.outside_length fun l _ c _ hc => Bool.eq_false_iff.2 fun hlower => by
    rw [Number.isNumeric_of_isLower hlower] at hc
    contradiction

/-- The color of a stop is found again in front of what is written after it. -/
theorem color_append (h : w.Apart) (hv : Outside (!isStopEnd ·) v) :
    Color.lexeme (w.color ++ (w.between.text ++ (w.length.getD [] ++ v))) =
      some (w.color, w.between.text ++ (w.length.getD [] ++ v)) := by
  refine Color.lexeme_append w.color_scan ?_ fun hhash => ?_
  · exact (w.between.outside fun c => Text.isBlank_of_isLower).append
      (w.outside_isLower_length.append (Length.outside_of_stopEnd (by decide) hv))
  · by_cases hbetween : w.between.text = []
    · -- the length touches the color, so it does not begin with a digit
      have hlength : Outside Color.isHexDigit (w.length.getD []) :=
        w.outside_length fun l hl c hc hnumeric => by
          have hhex : (Color.hex w.color).isSome := by simp [Color.hex_of_hash w.color_scan hhash]
          have hdigit : c.isDigit = false :=
            Bool.eq_false_iff.2 fun hdigit => h hhex ⟨l, hl, c, hc, hdigit⟩ hbetween
          simp only [Number.isNumeric, hdigit, Bool.false_or, Bool.or_eq_true, beq_iff_eq]
            at hnumeric
          rcases hnumeric with rfl | rfl <;> rfl
      rw [hbetween]
      exact hlength.append (Length.outside_of_stopEnd (by decide) hv)
    · rw [Text.outside_append_of_ne_nil hbetween]
      exact w.between.outside fun c => Text.isBlank_of_isHexDigit

/-! ## The first pass -/

theorem outside_color (w : WrittenStop) (v : Text) : Outside Text.isBlank (w.color ++ v) := by
  obtain ⟨c, m, hm, -⟩ := Color.lexeme_head w.color_scan
  refine (Text.outside_append_of_ne_nil (by simp [hm])).2 ?_
  exact (Color.lexeme_trimmed w.color_scan).front

/-- A written stop is matched in front of the end of a stop that is no blank. -/
theorem spaced_text (h : w.Apart) (hv : Outside (!isStopEnd ·) v) (hgap : Outside Text.isGap v) :
    Stop.spaced (w.text ++ v) = some (w.text, v) := by
  have hafter : Outside (!isStopEnd ·) (w.after.text ++ v) := by
    refine Outside.append (fun c hc => ?_) hv
    simp [isStopEnd, w.after.isGap c (List.mem_of_mem_head? hc)]
  have hcolor := color_append h hafter
  have hfront := (w.outside_color (w.between.text ++ (w.length.getD [] ++ (w.after.text ++ v)))).mono
    fun c => Text.isBlank_of_isGap
  have htext : w.text ++ v = w.before.text ++ (w.color ++ (w.between.text ++
      (w.length.getD [] ++ (w.after.text ++ v)))) := by
    simp only [text, List.append_assoc]
  rw [htext]
  cases hl : w.length with
  | none =>
    -- the blanks before and after the missing length are one run
    have hbetween := (w.between.append w.after).scan hgap
    have hlength : Length.lexeme v = none :=
      Length.lexeme_eq_none (Length.outside_of_stopEnd (by decide) hv)
    simp only [hl, Option.getD_none, List.nil_append, Gap.append, List.append_assoc]
      at hcolor hbetween hfront ⊢
    have hstop := Lexeme.append_scan (Lexeme.append_scan hcolor hbetween)
      (Lexeme.optional_of_none hlength)
    have hspaced := Lexeme.append_scan (Lexeme.append_scan (w.before.scan hfront) hstop)
      (Gap.none.scan hgap)
    simpa [Stop.spaced, Stop.lexeme, text, hl, Gap.none] using hspaced
  | some l =>
    have hlength := Length.lexeme_append (w.length_scan l hl) hafter
    simp only [hl, Option.getD_some] at hcolor hfront ⊢
    have hbetween : Lexeme.gap (w.between.text ++ (l ++ (w.after.text ++ v))) =
        some (w.between.text, l ++ (w.after.text ++ v)) := by
      obtain ⟨c, l', rfl, hc⟩ := Length.head_isNumeric (w.length_scan l hl)
      exact w.between.scan (Text.outside_cons.2 (Text.isGap_eq_false (Text.isBlank_of_isNumeric hc)))
    have hstop := Lexeme.append_scan (Lexeme.append_scan hcolor hbetween)
      (Lexeme.optional_of_some hlength)
    have hspaced := Lexeme.append_scan (Lexeme.append_scan (w.before.scan hfront) hstop)
      (w.after.scan hgap)
    simpa [Stop.spaced, Stop.lexeme, text, hl] using hspaced

/-- What is matched as a stop in a list is a written stop. -/
theorem exists_text_eq (h : Stop.spaced t = some (m, rest)) :
    ∃ w : WrittenStop, w.text = m ∧ w.Apart := by
  obtain ⟨m₁, after, r₁, hm₁, hafter, rfl⟩ := Lexeme.append_eq_some_iff.1 h
  obtain ⟨before, m₂, r₂, hbefore, hm₂, rfl⟩ := Lexeme.append_eq_some_iff.1 hm₁
  obtain ⟨m₃, length, r₃, hm₃, hlength, rfl⟩ := Lexeme.append_eq_some_iff.1 hm₂
  obtain ⟨color, between, r₄, hcolor, hbetween, rfl⟩ := Lexeme.append_eq_some_iff.1 hm₃
  obtain ⟨gBefore, rfl, -, -⟩ := exists_gap_of_scan hbefore
  obtain ⟨gBetween, rfl, rfl, -⟩ := exists_gap_of_scan hbetween
  obtain ⟨gAfter, rfl, -, -⟩ := exists_gap_of_scan hafter
  have hcolor' : Color.lexeme color = some (color, []) := by
    simpa using Color.lexeme_append hcolor Text.outside_nil fun _ => Text.outside_nil
  rcases Lexeme.optional_eq_some_iff.1 hlength with hlength | ⟨-, rfl, -⟩
  · have hlength' : Length.lexeme length = some (length, []) := by
      simpa using Length.lexeme_append hlength Text.outside_nil
    refine ⟨⟨gBefore, color, hcolor', gBetween, some length, by simpa using hlength', gAfter⟩,
      by simp [text], fun hhex hdigit hnil => ?_⟩
    -- had a digit come right after the color, it would be one of the color's digits
    obtain ⟨l, hl, c, hc, hdigit⟩ := hdigit
    obtain rfl := Option.some.inj hl
    have hrest := Color.hex_rest (Color.hex_of_hash hcolor (Color.head_of_isSome_hex hhex))
    rw [← Length.lexeme.append_of_scan hlength, hnil, List.nil_append] at hrest
    have := hrest c (by rw [List.head?_append, hc]; rfl)
    rw [Color.isHexDigit_of_isDigit hdigit] at this
    contradiction
  · exact ⟨⟨gBefore, color, hcolor', gBetween, none, by simp, gAfter⟩, by simp [text],
      fun _ hdigit => by simp at hdigit⟩

/-! ## The second pass -/

/-- Without the blanks at its ends a stop is its color, and its length with the blanks between. -/
theorem trim_text (w : WrittenStop) :
    w.text.trim = w.color ++ (w.length.elim [] (w.between.text ++ ·)) := by
  have hcolor := Color.lexeme_trimmed w.color_scan
  cases hl : w.length with
  | none =>
    have htext : w.text = w.before.text ++ w.color ++ (w.between.append w.after).text := by
      simp [text, hl, Gap.append]
    rw [htext, Text.trim_append w.before.isBlank (w.between.append w.after).isBlank hcolor]
    simp
  | some l =>
    have hlength := Length.lexeme_trimmed (w.length_scan l hl)
    obtain ⟨c, color, hc, -⟩ := Color.lexeme_head w.color_scan
    obtain ⟨d, l', hd, -⟩ := Length.head_isNumeric (w.length_scan l hl)
    have htrimmed : Text.Trimmed (w.color ++ w.between.text ++ l) :=
      .between (by simp [hc]) hcolor.front (by simp [hd]) hlength.back _
    have htext : w.text = w.before.text ++ (w.color ++ w.between.text ++ l) ++ w.after.text := by
      simp [text, hl]
    rw [htext, Text.trim_append w.before.isBlank w.after.isBlank htrimmed]
    simp

/-- A piece of the list is read as the stop that is meant. -/
theorem ofPiece_text (h : w.Apart) : Stop.ofPiece w.text = .ok w.stop := by
  have hcolor := color_append (v := []) h Text.outside_nil
  rw [Stop.ofPiece, trim_text]
  cases hl : w.length with
  | none =>
    have hscan : Color.lexeme w.color = some (w.color, []) := w.color_scan
    simp [hscan, stop, hl, Text.trim, Text.trimStart, Text.trimEnd]
  | some l =>
    have hlength := Length.lexeme_trimmed (w.length_scan l hl)
    obtain ⟨c, l', rfl, -⟩ := Length.head_isNumeric (w.length_scan l hl)
    have htrim : Text.trim (w.between.text ++ c :: l') = c :: l' := by
      simpa using Text.trim_append (u := []) w.between.isBlank (by simp) hlength
    simp only [hl, Option.getD_some, List.append_nil] at hcolor
    simp [hcolor, htrim, stop, hl]

/-- A stop has no comma but between the parentheses of its color. -/
theorem sealed_text (w : WrittenStop) : Text.SealedFrom 0 w.text := by
  have hlength : Text.SealedFrom 0 (w.length.getD []) := by
    cases hl : w.length with
    | none => exact Text.sealedFrom_nil
    | some l => exact Length.lexeme_sealed (w.length_scan l hl)
  exact (((w.before.sealed.append (Color.lexeme_sealed w.color_scan)).append w.between.sealed).append
    hlength).append w.after.sealed

end WrittenStop

/-- A list of written stops is read as the stops that are meant, in their order. -/
theorem Stop.listOfText_join {ws : List WrittenStop} (hne : ws ≠ []) (h : ∀ w ∈ ws, w.Apart) :
    Stop.listOfText (Text.join [','] (ws.map WrittenStop.text)) =
      .ok (ws.map WrittenStop.stop) := by
  have hsealed : ∀ t ∈ ws.map WrittenStop.text, Text.SealedFrom 0 t := by
    intro t ht
    obtain ⟨w, -, rfl⟩ := List.mem_map.1 ht
    exact w.sealed_text
  rw [Stop.listOfText, Text.pieces_join (by simpa using hne) (Text.joinable_of_sealed hsealed)]
  clear hne hsealed
  induction ws with
  | nil => rfl
  | cons w ws ih =>
    rw [List.map_cons, List.mapM_cons, WrittenStop.ofPiece_text (h w (by simp)),
      ih fun w' hw' => h w' (by simp [hw'])]
    rfl

end LegacyGradient
