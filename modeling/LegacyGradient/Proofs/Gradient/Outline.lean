/-
  LegacyGradient.Proofs.Gradient.Outline

  The first pass over written gradients. A written gradient whose tokens are clear has the outline
  that its author means (`outline_text`), and a text with an outline is a written gradient of this
  kind (`exists_text_eq`).
-/
import LegacyGradient.Proofs.Gradient.Stops
import LegacyGradient.Proofs.Lexeme.Separated
import LegacyGradient.Proofs.Token.Direction

namespace LegacyGradient

open Text (Outside)

namespace Outline

variable {t m rest v : Text} {d : Direction}

/-! ## The comma after a direction -/

theorem comma_eq_some_iff :
    (∃ m, (Lexeme.gap ++ .char ',') t = some (m, rest)) ↔ ∃ g : Gap, t = g.text ++ ',' :: rest := by
  constructor
  · rintro ⟨m, h⟩
    obtain ⟨m₁, m₂, r, hgap, hcomma, rfl⟩ := Lexeme.append_eq_some_iff.1 h
    obtain ⟨g, rfl, rfl, -⟩ := exists_gap_of_scan hgap
    obtain ⟨-, rfl⟩ := Lexeme.char_eq_some_iff.1 hcomma
    exact ⟨g, rfl⟩
  · rintro ⟨g, rfl⟩
    exact ⟨_, Lexeme.append_scan (g.scan (Text.outside_cons.2 rfl)) Lexeme.char_cons_self⟩

theorem scanDirection_eq_some_iff :
    scanDirection t = some (d, rest) ↔
      ∃ g : Gap, Direction.scan t = some (d, g.text ++ ',' :: rest) := by
  simp only [scanDirection, Option.bind_eq_bind, Option.bind_eq_some_iff, Prod.exists,
    Option.pure_def, Option.some.injEq, Prod.mk.injEq]
  constructor
  · rintro ⟨d', r, hscan, m, rest', hcomma, rfl, rfl⟩
    obtain ⟨g, rfl⟩ := comma_eq_some_iff.1 ⟨m, hcomma⟩
    exact ⟨g, hscan⟩
  · rintro ⟨g, hscan⟩
    obtain ⟨m, hcomma⟩ := comma_eq_some_iff.2 ⟨g, rfl⟩
    exact ⟨d, _, hscan, m, rest, hcomma, rfl, rfl⟩

theorem atComma (g : Gap) (t : Text) : Direction.AtComma (g.text ++ ',' :: t) :=
  .inr ⟨g.text, t, g.isGap, rfl⟩

theorem scanDirection_text (w : WrittenDirection) (v : Text) :
    scanDirection (w.text ++ v) = some (w.value, w.afterComma.text ++ v) := by
  obtain ⟨m, hm, hscan⟩ := Direction.scan_append w.scan
  rw [List.append_nil] at hm
  refine scanDirection_eq_some_iff.2 ⟨w.beforeComma, ?_⟩
  have := hscan _ (atComma w.beforeComma (w.afterComma.text ++ v))
  rw [← hm] at this
  simpa [WrittenDirection.text] using this

/-! ## Colors that are no directions -/

/-- The only keywords of edges that are colors are those of the lower and the right edge. -/
theorem side_of_color {s : Side} (h : Color.keyword s.name = some (s.name, [])) :
    s = .bottom ∨ s = .right := by
  cases s with
  | top => exact absurd h (by decide)
  | bottom => exact .inl rfl
  | left => exact absurd h (by decide)
  | right => exact .inr rfl

/-- The letters at the front of a text that begins with a color are the name of a function, or
nothing, or the whole color. -/
theorem color_of_takeWhile {w : WrittenStop} {s : Side} (hv : Outside Char.isLower v)
    (h : (w.color ++ v).takeWhile Char.isLower = s.name) :
    Color.keyword w.color = some (w.color, []) ∧ w.color = s.name := by
  rcases Color.lexeme_cases w.color_scan with hc | hc | hc
  · have := Color.takeWhile_isLower_of_function (Color.function_append hc v)
    rw [h] at this
    cases s <;> exact absurd this (by decide)
  · obtain ⟨digits, hdigits, -⟩ := Color.hex_form hc
    rw [hdigits, List.cons_append, Text.takeWhile_outside (Text.outside_cons.2 rfl),
      Side.name_eq_cons] at h
    contradiction
  · rw [Text.takeWhile_append_outside (Color.keyword_form hc).2 hv] at h
    exact ⟨hc, h⟩

/-- After blanks comes neither a comma nor a letter. -/
def NoKeyword (v : Text) : Prop :=
  Outside (fun c => c == ',' || c.isLower) (v.dropWhile Text.isGap)

theorem noKeyword_append {g : Text} (hg : ∀ c ∈ g, Text.isGap c = true)
    (hv : Outside Text.isGap v) :
    NoKeyword (g ++ v) ↔ Outside (fun c => c == ',' || c.isLower) v := by
  rw [NoKeyword, Text.dropWhile_append_outside hg hv]

/-- Behind the first keyword of a direction stands a second one after blanks, or the comma. -/
theorem not_noKeyword_of_second (hm : Direction.SecondKeyword m) (g : Gap) (t : Text) :
    Outside Char.isLower (m ++ (g.text ++ ',' :: t)) ∧ ¬ NoKeyword (m ++ (g.text ++ ',' :: t)) := by
  have hlower : ∀ g : Gap, Outside Char.isLower g.text := fun g =>
    g.outside fun c => Text.isBlank_of_isLower
  rcases hm with rfl | ⟨g', s, hg', hne, rfl⟩
  · refine ⟨(hlower g).append (Text.outside_cons.2 rfl), ?_⟩
    rw [List.nil_append, noKeyword_append g.isGap (Text.outside_cons.2 rfl), Text.outside_cons]
    decide
  · rw [List.append_assoc]
    refine ⟨(Text.outside_append_of_ne_nil hne).2 (hlower ⟨g', hg'⟩), ?_⟩
    have hs := s.isLower_initial
    rw [Side.name_eq_cons, List.cons_append, noKeyword_append hg', Text.outside_cons, hs]
    · simp
    · exact Text.outside_cons.2 (Text.isGap_eq_false (Text.isBlank_of_isLower hs))

/-- A direction that begins with a color consists of that color, and goes on after it. -/
theorem scanDirection_color {w : WrittenStop} (hv : Outside Char.isLower v)
    (h : scanDirection (w.color ++ v) = some (d, rest)) :
    (w.color = "bottom".toList ∨ w.color = "right".toList) ∧ ¬ NoKeyword v := by
  obtain ⟨g, hscan⟩ := scanDirection_eq_some_iff.1 h
  have hnumeric : Outside Number.isNumeric (w.color ++ v) := by
    obtain ⟨c, m, hm, hc⟩ := Color.lexeme_head w.color_scan
    rw [hm]
    rcases hc with hc | rfl
    · exact Text.outside_cons.2 (Number.isNumeric_of_isLower hc)
    · exact Text.outside_cons.2 rfl
  rcases Direction.scan_eq_some_iff.1 hscan with ⟨degrees, hs, -⟩ | ⟨-, sides, hs, -⟩
  · rw [Direction.scanAngle_eq_none hnumeric] at hs
    contradiction
  -- so the direction is in keywords, and the first of them is the whole color
  obtain ⟨s, m, hm, ht, -⟩ := Direction.scanKeywords_append hs
  obtain ⟨hlower, hkeyword'⟩ := not_noKeyword_of_second hm g rest
  have hword := Text.takeWhile_append_outside s.isLower_name hlower
  rw [← ht] at hword
  obtain ⟨hkeyword, hcolor⟩ := color_of_takeWhile hv hword
  rw [hcolor] at hkeyword ht
  rw [List.append_cancel_left ht]
  refine ⟨?_, hkeyword'⟩
  rcases side_of_color hkeyword with rfl | rfl
  · exact .inl hcolor
  · exact .inr hcolor

end Outline

namespace WrittenGradient

variable {w : WrittenGradient}

/-! ## The outline of a written gradient -/

/-- What stands behind the color of the first stop. -/
def afterColor (w : WrittenGradient) (v : Text) : Text :=
  w.first.between.text ++ (w.first.length.getD [] ++ (w.first.after.text ++
    ((w.others.map WrittenStop.text).flatMap ([','] ++ ·) ++ ')' :: v)))

theorem list_append (w : WrittenGradient) (v : Text) :
    w.list ++ ')' :: v = w.first.color ++ w.afterColor v := by
  simp [list, afterColor, Text.join_cons, WrittenStop.text, WrittenStop.flush, Gap.none]

theorem join_items (w : WrittenGradient) :
    Text.join [','] (w.items.map WrittenStop.text) = w.first.before.text ++ w.list := by
  simp [items, list, Text.join_cons, WrittenStop.text, WrittenStop.flush, Gap.none]

/-- Without a direction the list of stops is not taken for one. -/
theorem scanDirection_list (h : w.FirstIsStop) (hdirection : w.direction? = none) (v : Text) :
    Outline.scanDirection (w.list ++ ')' :: v) = none := by
  refine Option.eq_none_iff_forall_ne_some.2 fun found hfound => ?_
  rw [list_append] at hfound
  have hnext : ∀ {p : Char → Bool}, p ',' = false → p ')' = false → Outside p
      ((w.others.map WrittenStop.text).flatMap ([','] ++ ·) ++ ')' :: v) := by
    intro p hcomma hclose
    cases w.others with
    | nil => exact Text.outside_cons.2 hclose
    | cons s others => exact Text.outside_cons.2 hcomma
  have hlower : Outside Char.isLower (w.afterColor v) :=
    (w.first.between.outside fun c => Text.isBlank_of_isLower).append
      (w.first.outside_isLower_length.append
        ((w.first.after.outside fun c => Text.isBlank_of_isLower).append (hnext rfl rfl)))
  obtain ⟨hcolor, hkeyword⟩ := Outline.scanDirection_color hlower hfound
  refine hkeyword ?_
  cases hl : w.first.length with
  | none =>
    -- the color alone is a direction only if another stop follows
    by_cases hothers : w.others = []
    · have hafter : w.afterColor v = (w.first.between.append w.first.after).text ++ ')' :: v := by
        simp [afterColor, hl, hothers, Gap.append]
      rw [hafter, Outline.noKeyword_append (Gap.isGap _) (Text.outside_cons.2 rfl)]
      exact Text.outside_cons.2 rfl
    · exact absurd hcolor (not_or.2 (h hdirection hothers hl))
  | some l =>
    obtain ⟨c, l', rfl, hc⟩ := Length.head_isNumeric (w.first.length_scan l hl)
    rw [afterColor, hl, Option.getD_some, List.cons_append,
      Outline.noKeyword_append w.first.between.isGap (Text.outside_cons.2 (Text.isGap_eq_false (Text.isBlank_of_isNumeric hc)))]
    refine Text.outside_cons.2 (Bool.eq_false_iff.2 fun hp => ?_)
    rcases Bool.or_eq_true_iff.1 hp with hp | hp
    · rw [eq_of_beq hp] at hc
      contradiction
    · rw [Number.isNumeric_of_isLower hp] at hc
      contradiction

theorem list_outside (w : WrittenGradient) (v : Text) :
    Outside Text.isGap (w.list ++ ')' :: v) := by
  rw [list_append]
  exact (w.first.outside_color _).mono fun c => Text.isBlank_of_isGap

theorem stops_list (h : ∀ s ∈ w.items, s.Apart) (v : Text) :
    Outline.stops (w.list ++ ')' :: v) = some (w.list, ')' :: v) := by
  have hapart : ∀ s ∈ w.first.flush :: w.others, s.Apart := by
    intro s hs
    rcases List.mem_cons.1 hs with rfl | hs
    · exact h w.first (by simp [items])
    · exact h s (by simp [items, hs])
  have hitem : ∀ t ∈ (w.first.flush :: w.others).map WrittenStop.text, ∀ v,
      Outside (!Length.isStopEnd ·) v → Outside Text.isGap v → Stop.spaced (t ++ v) = some (t, v) := by
    intro t ht v hv hgap
    obtain ⟨s, hs, rfl⟩ := List.mem_map.1 ht
    exact WrittenStop.spaced_text (hapart s hs) hv hgap
  refine Lexeme.separated_join (by simp) (fun t ht u => ?_) (fun t ht => ?_) (Text.outside_cons.2 rfl)
  · exact hitem t ht _ (Text.outside_cons.2 rfl) (Text.outside_cons.2 rfl)
  · exact hitem t ht _ (Text.outside_cons.2 rfl) (Text.outside_cons.2 rfl)

end WrittenGradient

namespace Outline

/-- The steps of the first pass. -/
theorem scan_eq_some_iff {t rest : Text} {o : Outline} :
    scan t = some (o, rest) ↔
      ∃ m₁ r₁ m₂ r₂ r₃ m₄, (Lexeme.gap ++ opening ++ .gap) t = some (m₁, r₁) ∧
        Lexeme.gap ((scanDirection r₁).getD (Direction.default, r₁)).2 = some (m₂, r₂) ∧
        stops r₂ = some (o.stopList, r₃) ∧ (Lexeme.char ')' ++ .gap) r₃ = some (m₄, rest) ∧
        o.direction = ((scanDirection r₁).getD (Direction.default, r₁)).1 := by
  obtain ⟨direction, list⟩ := o
  simp only [scan, Option.bind_eq_bind, Option.bind_eq_some_iff, Prod.exists, Option.pure_def,
    Option.some.injEq, Prod.mk.injEq, Outline.mk.injEq]
  constructor
  · rintro ⟨m₁, r₁, h₁, m₂, r₂, h₂, list', r₃, h₃, m₄, r₄, h₄, ⟨rfl, rfl⟩, rfl⟩
    exact ⟨m₁, r₁, m₂, r₂, r₃, m₄, h₁, h₂, h₃, h₄, rfl⟩
  · rintro ⟨m₁, r₁, m₂, r₂, r₃, m₄, h₁, h₂, h₃, h₄, rfl⟩
    exact ⟨m₁, r₁, h₁, m₂, r₂, h₂, list, r₃, h₃, m₄, rest, h₄, ⟨rfl, rfl⟩, rfl⟩

theorem ofText_eq_ok_iff {t : Text} {o : Outline} :
    ofText t = .ok o ↔ scan t = some (o, []) := by
  simp only [ofText, wholeText]
  cases scan t with
  | none => simp
  | some found =>
    obtain ⟨o', rest⟩ := found
    cases rest <;> simp

theorem eq_notRecognized_of_error {t : Text} {e : ConversionError} (h : ofText t = .error e) :
    e = .notRecognized t := by
  simp only [ofText] at h
  split at h
  · contradiction
  · exact (Except.error.inj h).symm

end Outline

namespace WrittenGradient

variable {w : WrittenGradient}

/-- A written gradient has the outline that is meant. -/
theorem outline_text (h : w.Clear) : Outline.ofText w.text = .ok ⟨w.direction, w.list⟩ := by
  have hclose : (Lexeme.char ')' ++ .gap) (')' :: w.after.text) = some (_, []) :=
    Lexeme.append_scan Lexeme.char_cons_self
      (by simpa using w.after.scan Text.outside_nil)
  have hlist := stops_list h.apart w.after.text
  have hgap := w.list_outside w.after.text
  have hopening : ∀ g : Gap, ∀ v, Outside Text.isGap v →
      (Lexeme.gap ++ Outline.opening ++ .gap)
        (w.before.text ++ ("linear-gradient(".toList ++ (g.text ++ v))) =
        some (w.before.text ++ "linear-gradient(".toList ++ g.text, v) := fun g v hv =>
    Lexeme.append_scan (Lexeme.append_scan (w.before.scan (Text.outside_cons.2 rfl))
      Lexeme.word_append) (g.scan hv)
  rw [Outline.ofText_eq_ok_iff, Outline.scan_eq_some_iff]
  cases hdirection : w.direction? with
  | none =>
    have hdir := scanDirection_list h.firstIsStop hdirection w.after.text
    have htext : w.text = w.before.text ++ ("linear-gradient(".toList ++
        ((w.afterOpening.append w.first.before).text ++ (w.list ++ ')' :: w.after.text))) := by
      simp only [text, hdirection, Option.elim_none, join_items, Gap.append, List.append_nil,
        List.append_assoc]
    have hfront := hopening (w.afterOpening.append w.first.before) _ hgap
    rw [← htext] at hfront
    refine ⟨_, _, [], _, _, _, hfront, ?_, hlist, hclose, ?_⟩
    · rw [hdir]
      exact Gap.none.scan hgap
    · rw [hdir, direction, hdirection]
      rfl
  | some d =>
    have hdir := Outline.scanDirection_text d (w.first.before.text ++ (w.list ++ ')' :: w.after.text))
    have htoken : Outside Text.isGap
        (d.text ++ (w.first.before.text ++ (w.list ++ ')' :: w.after.text))) := by
      obtain ⟨hne, htoken⟩ := Direction.outside_isGap_of_scan d.scan
      rw [WrittenDirection.text, List.append_assoc, List.append_assoc]
      exact (Text.outside_append_of_ne_nil hne).2 htoken
    have htext : w.text = w.before.text ++ ("linear-gradient(".toList ++ (w.afterOpening.text ++
        (d.text ++ (w.first.before.text ++ (w.list ++ ')' :: w.after.text))))) := by
      simp only [text, hdirection, Option.elim_some, join_items, List.append_assoc]
    have hfront := hopening w.afterOpening _ htoken
    rw [← htext] at hfront
    refine ⟨_, _, (d.afterComma.append w.first.before).text, _, _, _, hfront, ?_, hlist, hclose, ?_⟩
    · rw [hdir, Option.getD_some, ← List.append_assoc]
      exact (d.afterComma.append w.first.before).scan hgap
    · rw [hdir, direction, hdirection]
      rfl

end WrittenGradient

/-! ## Texts that have an outline -/

namespace Outline

theorem exists_gaps_of_opening {t m rest : Text}
    (h : (Lexeme.gap ++ opening ++ .gap) t = some (m, rest)) :
    ∃ g g' : Gap, t = g.text ++ "linear-gradient(".toList ++ g'.text ++ rest ∧
      Outside Text.isGap rest := by
  obtain ⟨m₁, m₂, r, hopen, hgap', rfl⟩ := Lexeme.append_eq_some_iff.1 h
  obtain ⟨m₃, m₄, r', hgap, hopening, rfl⟩ := Lexeme.append_eq_some_iff.1 hopen
  obtain ⟨g, rfl, rfl, -⟩ := exists_gap_of_scan hgap
  obtain ⟨g', rfl, rfl, hrest⟩ := exists_gap_of_scan hgap'
  obtain ⟨-, rfl⟩ := Lexeme.word_eq_some_iff.1 hopening
  exact ⟨g, g', by simp, hrest⟩

theorem exists_gap_of_closing {t m : Text} (h : (Lexeme.char ')' ++ .gap) t = some (m, [])) :
    ∃ g : Gap, t = ')' :: g.text := by
  obtain ⟨m₁, m₂, r, hclose, hgap, rfl⟩ := Lexeme.append_eq_some_iff.1 h
  obtain ⟨-, rfl⟩ := Lexeme.char_eq_some_iff.1 hclose
  obtain ⟨g, rfl, rfl, -⟩ := exists_gap_of_scan hgap
  exact ⟨g, by simp⟩

theorem exists_items_of_stops {t m rest : Text} (h : stops t = some (m, rest)) :
    ∃ (first : WrittenStop) (others : List WrittenStop), (∀ s ∈ first :: others, s.Apart) ∧
      Text.join [','] ((first :: others).map WrittenStop.text) = m := by
  obtain ⟨ts, hne, rfl, hitems⟩ := Lexeme.join_of_separated h
  have hwritten : ∃ ws : List WrittenStop, ws.map WrittenStop.text = ts ∧ ∀ w ∈ ws, w.Apart := by
    clear h hne
    induction ts with
    | nil => exact ⟨[], rfl, by simp⟩
    | cons t ts ih =>
      obtain ⟨u, v, ht⟩ := hitems t (by simp)
      obtain ⟨w, rfl, hw⟩ := WrittenStop.exists_text_eq ht
      obtain ⟨ws, rfl, hws⟩ := ih fun t' ht' => hitems t' (List.mem_cons_of_mem _ ht')
      exact ⟨w :: ws, rfl, List.forall_mem_cons.2 ⟨hw, hws⟩⟩
  obtain ⟨ws, rfl, hapart⟩ := hwritten
  obtain ⟨first, others, rfl⟩ := List.exists_cons_of_ne_nil (by simpa using hne : ws ≠ [])
  exact ⟨first, others, hapart, rfl⟩

/-- A color that is the keyword of an edge is read as a direction when a comma comes next. -/
theorem scanDirection_keyword {w : WrittenStop}
    (hcolor : w.color = "bottom".toList ∨ w.color = "right".toList) (v : Text) :
    scanDirection (w.color ++ w.between.text ++ w.after.text ++ ',' :: v) ≠ none := by
  have hscan : ∃ d, Direction.scan w.color = some (d, []) := by
    rcases hcolor with hcolor | hcolor
    · exact ⟨.keywords [.bottom], by rw [hcolor]; decide⟩
    · exact ⟨.keywords [.right], by rw [hcolor]; decide⟩
  obtain ⟨d, hscan⟩ := hscan
  have := scanDirection_text ⟨w.color, d, hscan, w.between.append w.after, Gap.none⟩ v
  simp only [WrittenDirection.text, Gap.append, Gap.none, List.append_assoc, List.cons_append,
    List.nil_append] at this
  simp [this]

end Outline

namespace WrittenGradient

/-- A text that has an outline is a written gradient. -/
theorem exists_text_eq {t : Text} {o : Outline} (h : Outline.ofText t = .ok o) :
    ∃ w : WrittenGradient, w.Clear ∧ w.text = t := by
  rw [Outline.ofText_eq_ok_iff, Outline.scan_eq_some_iff] at h
  obtain ⟨m₁, r₁, m₂, r₂, r₃, m₄, hfront, hgap, hstops, hclose, -⟩ := h
  obtain ⟨before, afterOpening, rfl, hr₁⟩ := Outline.exists_gaps_of_opening hfront
  obtain ⟨after, rfl⟩ := Outline.exists_gap_of_closing hclose
  obtain ⟨first, others, hapart, hlist⟩ := Outline.exists_items_of_stops hstops
  have hr₂ := Outline.stops.append_of_scan hstops
  rw [← hlist] at hr₂
  cases hdirection : Outline.scanDirection r₁ with
  | none =>
    rw [hdirection, Option.getD_none] at hgap
    obtain ⟨-, rfl⟩ : [] = m₂ ∧ r₁ = r₂ := by
      simpa [Gap.none] using (Gap.none.scan hr₁).symm.trans hgap
    subst hr₂
    refine ⟨⟨before, afterOpening, none, first, others, after⟩, ⟨hapart, ?_⟩, by simp [text, items]⟩
    -- a keyword before a comma would have been a direction
    intro _ hothers hlength
    change first.length = none at hlength
    obtain ⟨second, others, rfl⟩ := List.exists_cons_of_ne_nil hothers
    have hnil := first.before.eq_nil_of_outside (v := first.color ++ first.between.text ++
      first.after.text ++ ',' :: Text.join [','] ((second :: others).map WrittenStop.text) ++
        ')' :: after.text) (by simpa [WrittenStop.text, hlength, Text.join] using hr₁)
    refine not_or.1 fun hcolor => Outline.scanDirection_keyword hcolor
      (Text.join [','] ((second :: others).map WrittenStop.text) ++ ')' :: after.text) ?_
    simpa [WrittenStop.text, hlength, hnil, Text.join] using hdirection
  | some found =>
    obtain ⟨d, rest⟩ := found
    obtain ⟨beforeComma, hscan⟩ := Outline.scanDirection_eq_some_iff.1 hdirection
    obtain ⟨token, rfl, hagain⟩ := Direction.scan_append hscan
    have htoken : Direction.scan token = some (d, []) := by simpa using hagain [] (.inl rfl)
    obtain ⟨afterComma, rfl, hrest, -⟩ := exists_gap_of_scan hgap
    refine ⟨⟨before, afterOpening, some ⟨token, d, htoken, beforeComma, afterComma⟩, first, others,
      after⟩, ⟨hapart, fun hnone => by contradiction⟩, ?_⟩
    simp only [hdirection, Option.getD_some] at hrest
    simp [text, items, WrittenDirection.text, hrest, ← hr₂]

end WrittenGradient

end LegacyGradient
