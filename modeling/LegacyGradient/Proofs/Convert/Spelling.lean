/-
  LegacyGradient.Proofs.Convert.Spelling

  Directions in other words. The direction of a gradient and what follows its comma are read apart, so
  that of two directions with the same line one may stand for the other whatever follows them, and a
  direction from the top may be left out where nothing else is then taken for a direction
  (`convert_respelled`).
-/
import LegacyGradient.Proofs.Convert.Fault

namespace LegacyGradient

open Text (Outside)

variable {options : Options} {t t' inner token : Text} {d d' : Direction} {corners : Corners}

/-! ## The texts to compare -/

/-- A call of the gradient function with this text between its parentheses. -/
def Gradient.call (inner : Text) : Text := "linear-gradient(".toList ++ (inner ++ [')'])

/-- A direction with its comma comes first in the text, after blanks. -/
def BeginsWithDirection (t : Text) : Prop :=
  ∃ (g : Gap) (d : WrittenDirection), g.text ++ d.text <+: t

/-- Two texts are converted to the same text or refused for the same reason, but a text that is no
gradient is told as it is written. -/
def ConvertedAlike (options : Options) (t t' : Text) : Prop :=
  convert options t = convert options t' ∨
    convert options t = .error (.notRecognized t) ∧
      convert options t' = .error (.notRecognized t')

/-! ## What follows the direction -/

namespace Outline

/-- The text is a list of stops with a closing parenthesis after it, and with blanks around both. -/
def Closes (list t : Text) : Prop :=
  ∃ r m, stops (t.dropWhile Text.isGap) = some (list, r) ∧
    (Lexeme.char ')' ++ .gap) r = some (m, [])

theorem opening_call (inner : Text) :
    (Lexeme.gap ++ opening ++ .gap) (Gradient.call inner) =
      some ("linear-gradient(".toList ++ (inner ++ [')']).takeWhile Text.isGap,
        (inner ++ [')']).dropWhile Text.isGap) := by
  have hfront : Outside Text.isGap ("linear-gradient(".toList ++ (inner ++ [')'])) :=
    Text.outside_cons.2 rfl
  have hgap : Lexeme.gap ("linear-gradient(".toList ++ (inner ++ [')'])) = some ([], _) :=
    Lexeme.run_eq_some_iff.2 ⟨(List.nil_append _).symm, List.forall_mem_nil _, hfront⟩
  exact Lexeme.append_scan (Lexeme.append_scan hgap Lexeme.word_append) rfl

/-- Whatever the direction is found to be, it says nothing about how the rest is read. -/
theorem ofText_call_eq_ok_iff {o : Outline} (found : Direction × Text)
    (h : (scanDirection ((inner ++ [')']).dropWhile Text.isGap)).getD
      (Direction.default, (inner ++ [')']).dropWhile Text.isGap) = found) :
    ofText (Gradient.call inner) = .ok o ↔ o.direction = found.1 ∧ Closes o.stopList found.2 := by
  rw [ofText_eq_ok_iff, scan_eq_some_iff]
  constructor
  · rintro ⟨m₁, r₁, m₂, r₂, r₃, m₄, h₁, h₂, h₃, h₄, hdirection⟩
    obtain ⟨rfl, rfl⟩ := Prod.mk.inj (Option.some.inj ((opening_call inner).symm.trans h₁))
    rw [h] at h₂ hdirection
    obtain ⟨-, rfl⟩ := Prod.mk.inj (Option.some.inj h₂)
    exact ⟨hdirection, r₃, m₄, h₃, h₄⟩
  · rintro ⟨hdirection, r₃, m₄, h₃, h₄⟩
    refine ⟨_, _, _, _, r₃, m₄, opening_call inner, rfl, ?_, h₄, ?_⟩
    · rw [h]
      exact h₃
    · rw [h]
      exact hdirection

/-- With a direction in front the rest begins after its comma. -/
theorem ofText_directed (h : Direction.scan token = some (d, [])) (inner : Text) {o : Outline} :
    ofText (Gradient.call (token ++ ',' :: inner)) = .ok o ↔
      o.direction = d ∧ Closes o.stopList (inner ++ [')']) := by
  obtain ⟨hne, houtside⟩ := Direction.outside_isGap_of_scan h
  have hdrop : (token ++ ',' :: inner ++ [')']).dropWhile Text.isGap =
      token ++ ',' :: (inner ++ [')']) := by
    rw [List.append_assoc, List.cons_append,
      Text.dropWhile_outside ((Text.outside_append_of_ne_nil hne).2 houtside)]
  have hdirection : scanDirection (token ++ ',' :: (inner ++ [')'])) = some (d, inner ++ [')']) := by
    simpa [WrittenDirection.text, Gap.none] using
      scanDirection_text ⟨token, d, h, Gap.none, Gap.none⟩ (inner ++ [')'])
  rw [ofText_call_eq_ok_iff (d, inner ++ [')'])]
  rw [hdrop, hdirection, Option.getD_some]

theorem dropWhile_closing (inner : Text) :
    (inner ++ [')']).dropWhile Text.isGap = inner.dropWhile Text.isGap ++ [')'] := by
  have hfront : Outside Text.isGap (inner.dropWhile Text.isGap ++ [')']) :=
    Text.outside_dropWhile.append (Text.outside_cons.2 rfl)
  have := Text.dropWhile_append_outside (List.all_eq_true.1 (List.all_takeWhile (l := inner))) hfront
  rwa [← List.append_assoc, List.takeWhile_append_dropWhile] at this

/-- A direction that is found in front of the closing parenthesis has its comma there as well. -/
theorem scanDirection_closing {rest : Text} (h : scanDirection (t ++ [')']) = some (d, rest)) :
    ∃ rest, scanDirection t = some (d, rest) := by
  obtain ⟨g, hscan⟩ := scanDirection_eq_some_iff.1 h
  obtain ⟨token, htoken, hagain⟩ := Direction.scan_append hscan
  rcases List.eq_nil_or_concat rest with rfl | ⟨rest, c, rfl⟩
  · -- the text would end in the comma
    have hend : t ++ [')'] = (token ++ g.text) ++ [','] := by rw [htoken, List.append_assoc]
    have := (List.append_inj' hend rfl).2
    contradiction
  · have hend : t ++ [')'] = (token ++ (g.text ++ ',' :: rest)) ++ [c] := by simpa using htoken
    obtain ⟨rfl, -⟩ := List.append_inj' hend rfl
    exact ⟨rest, scanDirection_eq_some_iff.2 ⟨g, hagain _ (atComma g rest)⟩⟩

theorem beginsWithDirection_iff :
    BeginsWithDirection t ↔ (scanDirection (t.dropWhile Text.isGap)).isSome = true := by
  rw [Option.isSome_iff_exists]
  constructor
  · rintro ⟨g, w, rest, rfl⟩
    obtain ⟨hne, houtside⟩ := Direction.outside_isGap_of_scan w.scan
    have hfront : Outside Text.isGap (w.text ++ rest) := by
      rw [WrittenDirection.text, List.append_assoc, List.append_assoc]
      exact (Text.outside_append_of_ne_nil hne).2 houtside
    rw [List.append_assoc, Text.dropWhile_append_outside g.isGap hfront]
    exact ⟨_, scanDirection_text w rest⟩
  · rintro ⟨⟨d, rest⟩, h⟩
    obtain ⟨g, hscan⟩ := scanDirection_eq_some_iff.1 h
    obtain ⟨token, htoken, hagain⟩ := Direction.scan_append hscan
    have hwhole : Direction.scan token = some (d, []) := by simpa using hagain [] (.inl rfl)
    have hsplit := List.takeWhile_append_dropWhile (p := Text.isGap) (l := t)
    rw [htoken] at hsplit
    refine ⟨⟨t.takeWhile Text.isGap, List.all_eq_true.1 List.all_takeWhile⟩,
      ⟨token, d, hwhole, g, Gap.none⟩, rest, ?_⟩
    simpa [WrittenDirection.text, Gap.none] using hsplit

/-- Without a direction the rest begins at once. -/
theorem ofText_undirected (h : ¬ BeginsWithDirection inner) {o : Outline} :
    ofText (Gradient.call inner) = .ok o ↔
      o.direction = Direction.default ∧ Closes o.stopList (inner ++ [')']) := by
  have hnone : scanDirection ((inner ++ [')']).dropWhile Text.isGap) = none := by
    refine Option.eq_none_iff_forall_ne_some.2 fun ⟨d, rest⟩ hfound => h ?_
    rw [dropWhile_closing] at hfound
    obtain ⟨rest', hdirection⟩ := scanDirection_closing hfound
    rw [beginsWithDirection_iff, hdirection]
    rfl
  rw [ofText_call_eq_ok_iff _ (by rw [hnone, Option.getD_none]), Closes, Closes,
    Text.dropWhile_outside Text.outside_dropWhile]

end Outline

/-! ## Conversions alike -/

theorem Outline.exists_stops {o : Outline} (h : Outline.ofText t = .ok o) :
    ∃ stops, Stop.listOfText o.stopList = .ok stops := by
  obtain ⟨w, hw, rfl⟩ := WrittenGradient.exists_text_eq h
  obtain rfl := Except.ok.inj ((WrittenGradient.outline_text hw).symm.trans h)
  exact ⟨_, WrittenGradient.listOfText_list hw⟩

/-- A gradient that is recognized is converted from its direction and the stops of its list. -/
theorem convert_of_outline {list : Text} {stops : List Stop} (h : Outline.ofText t = .ok ⟨d, list⟩)
    (hstops : Stop.listOfText list = .ok stops) :
    convert options t =
      if stops.length < options.minStops then .error (.tooFewStops stops.length options.minStops)
      else Legacy.ofParts d stops := by
  have hread : Gradient.ofText t = .ok ⟨d, stops, t⟩ := by
    simp only [Gradient.ofText, h, bind, Except.bind, hstops]
    rfl
  exact convert_of_read hread

/-- Two texts are converted alike if they have the same lists of stops, and directions of the same
line. -/
theorem convertedAlike_of_outlines (closes : Text → Prop)
    (h : ∀ {o}, Outline.ofText t = .ok o ↔ o.direction = d ∧ closes o.stopList)
    (h' : ∀ {o}, Outline.ofText t' = .ok o ↔ o.direction = d' ∧ closes o.stopList)
    (hline : Corners.ofDirection d = Corners.ofDirection d') : ConvertedAlike options t t' := by
  by_cases hlist : ∃ list, closes list
  · obtain ⟨list, hlist⟩ := hlist
    have hread : Outline.ofText t = .ok ⟨d, list⟩ := h.2 ⟨rfl, hlist⟩
    have hread' : Outline.ofText t' = .ok ⟨d', list⟩ := h'.2 ⟨rfl, hlist⟩
    obtain ⟨stops, hstops⟩ := Outline.exists_stops hread
    left
    rw [convert_of_outline hread hstops, convert_of_outline hread' hstops, Legacy.ofParts,
      Legacy.ofParts, hline]
  · right
    constructor
    · exact convert_eq_of_refused fun o ho => hlist ⟨_, (h.1 ho).2⟩
    · exact convert_eq_of_refused fun o ho => hlist ⟨_, (h'.1 ho).2⟩

/-- How a direction is spelled does not matter, only its line, whatever follows the comma. A direction
from the top may be left out, unless what follows begins with a direction itself. -/
theorem convert_respelled {token' : Text} (options : Options)
    (hscan : Direction.scan token = some (d, [])) (hscan' : Direction.scan token' = some (d', []))
    (hline : Corners.ofDirection d = .ok corners) (hline' : Corners.ofDirection d' = .ok corners)
    (rest : Text) :
    ConvertedAlike options (Gradient.call (token ++ ',' :: rest))
        (Gradient.call (token' ++ ',' :: rest)) ∧
      (Corners.ofDirection .default = .ok corners → ¬ BeginsWithDirection rest →
        ConvertedAlike options (Gradient.call (token ++ ',' :: rest)) (Gradient.call rest)) := by
  constructor
  · exact convertedAlike_of_outlines (Outline.Closes · (rest ++ [')']))
      (Outline.ofText_directed hscan rest) (Outline.ofText_directed hscan' rest)
      (hline.trans hline'.symm)
  · intro htop hrest
    exact convertedAlike_of_outlines (Outline.Closes · (rest ++ [')']))
      (Outline.ofText_directed hscan rest) (Outline.ofText_undirected hrest)
      (hline.trans htop.symm)

/-- A negative angle that points up from below, its keyword, and no direction before a color that is the
keyword of another edge. -/
theorem convert_respelled_upward :
    Direction.scan "-90deg".toList = some (.angle (-90), []) ∧
      Direction.scan "top".toList = some (.keywords [.top], []) ∧
      ¬ BeginsWithDirection " bottom 10%, blue".toList ∧
      ConvertedAlike {} (Gradient.call ("-90deg".toList ++ ',' :: " bottom 10%, blue".toList))
        (Gradient.call ("top".toList ++ ',' :: " bottom 10%, blue".toList)) ∧
      ConvertedAlike {} (Gradient.call ("-90deg".toList ++ ',' :: " bottom 10%, blue".toList))
        (Gradient.call " bottom 10%, blue".toList) := by
  have hangle : Direction.scan "-90deg".toList = some (.angle (-90), []) := by decide +kernel
  have hkeyword : Direction.scan "top".toList = some (.keywords [.top], []) := by decide +kernel
  have hrest : ¬ BeginsWithDirection " bottom 10%, blue".toList := by
    rw [Outline.beginsWithDirection_iff]
    decide +kernel
  have hline : Corners.ofDirection (.angle (-90)) = .ok (.ofSides [.top]) :=
    Placement.eq_ok_of_toOption (by decide +kernel)
  have halike := convert_respelled {} hangle hkeyword hline rfl " bottom 10%, blue".toList
  exact ⟨hangle, hkeyword, hrest, halike.1, halike.2 rfl hrest⟩

end LegacyGradient
