/-
  LegacyGradient.Proofs.Gradient.Json

  Gradients as JSON and back. Everything but an angle is read as it was written, and what becomes of
  an angle decides what becomes of the gradient (`whole_reader`). So a gradient is itself again
  exactly if its angle lasts (`json_lasts_iff`), which some angles do not (`angles_lost`).
-/
import LegacyGradient.Gradient.Json
import LegacyGradient.Proofs.Json.Lasting
import LegacyGradient.Proofs.Json.Records
import LegacyGradient.Proofs.Placement.Own

namespace LegacyGradient

open Json (Problem Record)
open Json.Reader (Gives list_gives optional_gives string_gives)
open Json.Record (Filled)

/-! ## Stops -/

theorem Stop.reader_gives (s : Stop) : Stop.reader.Gives s.json (.ok s) := by
  have hcolor := (string_gives s.color).map fun color => { color := some color : Stop.Draft }
  have hposition := (optional_gives string_gives Json.Reader.begins_string s.position).map
    fun position => { color := some s.color, position := some position : Stop.Draft }
  have hfilled : Stop.record.Filled {} s.jsonMembers (.ok ⟨some s.color, some s.position⟩) :=
    .cons rfl rfl hcolor (.cons rfl rfl hposition (.nil _))
  refine hfilled.read_gives (fun _ => s) ?_
  rintro _ ⟨⟩
  rfl

theorem Stop.begins_json (s : Stop) : Json.Begins s.json :=
  ⟨'\x7b', _, rfl, rfl, by decide⟩

/-! ## Directions -/

theorem Side.reader_gives (s : Side) : Side.reader.Gives s.json (.ok s) := by
  apply Json.Variant.read_plain
  cases s <;> rfl

theorem Direction.reader_keywords (sides : List Side) :
    Direction.reader.Gives (Direction.keywords sides).json (.ok (.keywords sides)) := by
  have hsides := list_gives sides (fun s _ => s.reader_gives)
    fun s _ => Json.Reader.begins_stringText s.name
  exact Json.Variant.read_carrying rfl (hsides.map Direction.keywords)

theorem Direction.reader_angle {x : Binary64} {outcome : Except Problem Binary64}
    (h : Json.Reader.binary64.Gives (Json.numberText x) outcome) :
    Direction.reader.Gives (Direction.angle x).json (outcome.map Direction.angle) :=
  Json.Variant.read_carrying rfl (h.map Direction.angle)

/-! ## Gradients -/

/-- A gradient is read with the direction that is read in the place of its own. -/
theorem Gradient.reader_gives {g : Gradient} {outcome : Except Problem Direction}
    (h : Direction.reader.Gives g.direction.json outcome) :
    Gradient.reader.Gives g.json (outcome.map fun direction => { g with direction }) := by
  have hdirection := h.map fun direction => { direction := some direction : Gradient.Draft }
  have hfilled : Gradient.record.Filled {} [("direction".toList, g.direction.json),
      ("stops".toList, Json.arrayText (g.stops.map Stop.json)),
      ("source_text".toList, Json.stringText g.source)]
      (outcome.map fun direction => ⟨some direction, some g.stops, some g.source⟩) := by
    cases outcome with
    -- the direction comes first, so its problem is met before anything else is read
    | error problem => exact .refused rfl rfl hdirection
    | ok direction =>
      have hstops := (list_gives g.stops (fun s _ => s.reader_gives)
        fun s _ => s.begins_json).map
          fun stops => { direction := some direction, stops := some stops : Gradient.Draft }
      have hsource := (string_gives g.source).map fun source =>
        { direction := some direction, stops := some g.stops, source := some source :
          Gradient.Draft }
      exact .cons rfl rfl hdirection (.cons rfl rfl hstops (.cons rfl rfl hsource (.nil _)))
  have hread := hfilled.read_gives
    (fun draft => { g with direction := draft.direction.getD .default })
    (by cases outcome <;> rintro _ ⟨⟩; rfl)
  cases outcome <;> exact hread

/-- What is read where a direction was written. -/
def Direction.reread : Direction → Except Problem Direction
  | .keywords sides => .ok (.keywords sides)
  | .angle x => (Json.reread x).map .angle

theorem Direction.reader_gives (d : Direction) : Direction.reader.Gives d.json d.reread := by
  cases d with
  | keywords sides => exact Direction.reader_keywords sides
  | angle x => exact Direction.reader_angle (Json.numberText_gives x)

theorem Direction.reread_eq_ok_iff {d : Direction} :
    d.reread = .ok d ↔ ∀ x, d = .angle x → Json.Lasting x := by
  cases d with
  | keywords sides => simp [Direction.reread]
  | angle x =>
    simp only [Direction.angle.injEq, forall_eq', ← Json.reread_eq_ok_iff, Direction.reread]
    cases Json.reread x <;> simp [Except.map]

/-- A gradient that is read where one was written differs from it in its direction only. -/
theorem Gradient.whole_reader (g : Gradient) :
    Json.Reader.whole Gradient.reader g.json =
      g.direction.reread.map fun direction => { g with direction } :=
  Json.Reader.whole_of_gives (Gradient.reader_gives g.direction.reader_gives)

theorem Gradient.whole_reader_eq_ok_iff (g : Gradient) :
    Json.Reader.whole Gradient.reader g.json = .ok g ↔ g.direction.reread = .ok g.direction := by
  rw [Gradient.whole_reader]
  cases g.direction.reread with
  | error problem => simp [Except.map]
  | ok direction =>
    obtain ⟨own, stops, source⟩ := g
    simp [Except.map]

/-- A gradient is read again from its JSON text exactly if its angle, where it has one, lasts. An
angle that is not finite is refused. Whatever is read has the stops and the source as they were, and
angles with few digits last. -/
theorem Gradient.json_lasts_iff (g : Gradient) :
    (Json.Reader.whole Gradient.reader g.json = .ok g ↔
        ∀ x, g.direction = .angle x → Json.Lasting x) ∧
      (∀ x, g.direction = .angle x → ¬ x.IsFinite →
        Json.Reader.whole Gradient.reader g.json = .error Json.notANumber) ∧
      (∀ g', Json.Reader.whole Gradient.reader g.json = .ok g' →
        g' = { g with direction := g'.direction }) ∧
      ∀ negative r, r ≠ .top → (Decimal.shortest .even r).writtenDigits < 2 ^ 53 →
        (Decimal.shortest .even r).writtenPlace.natAbs ≤ 22 →
        Json.Lasting (.ranked negative r) := by
  refine ⟨?_, ?_, ?_, ?_⟩
  · rw [g.whole_reader_eq_ok_iff, Direction.reread_eq_ok_iff]
  · intro x hx hinfinite
    rw [g.whole_reader, hx, Direction.reread, Json.reread_of_not_isFinite hinfinite]
    rfl
  · intro g' hg'
    rw [g.whole_reader] at hg'
    cases hdirection : g.direction.reread with
    | error problem =>
      rw [hdirection] at hg'
      contradiction
    | ok direction =>
      rw [hdirection] at hg'
      obtain rfl := Except.ok.inj hg'
      rfl
  · exact fun negative r => Json.lasting_of_short

/-- A negative angle whose exact value is that of no number. -/
theorem Gradient.json_lasts_tenth :
    ∃ g x, Gradient.ofText "linear-gradient(-0.1deg, red 5%)".toList = .ok g ∧
      g.direction = .angle x ∧ Json.Lasting x ∧
      Json.Reader.whole Gradient.reader g.json = .ok g := by
  let x := Binary64.ranked true (Binary64.nearestRank (1 / 10))
  let g : Gradient := ⟨.angle x, [⟨"red".toList, some "5%".toList⟩],
    "linear-gradient(-0.1deg, red 5%)".toList⟩
  obtain ⟨hiff, -, -, hshort⟩ := Gradient.json_lasts_iff g
  have hx : Json.Lasting x :=
    hshort _ _ (by decide +kernel) (by decide +kernel) (by decide +kernel)
  refine ⟨g, x, Placement.eq_ok_of_toOption (by decide +kernel), rfl, hx, hiff.2 ?_⟩
  rintro _ ⟨⟩
  exact hx

/-- An angle of 310 digits is infinite and refused, and one of fifty-three bits is read as the
number before it. -/
theorem Gradient.angles_lost :
    (∃ g, Gradient.ofText ("linear-gradient(1".toList ++ List.replicate 309 '0' ++
        "deg, red)".toList) = .ok g ∧
      Json.Reader.whole Gradient.reader g.json = .error Json.notANumber) ∧
    ∃ g, Gradient.ofText "linear-gradient(9007199254740991deg, red)".toList = .ok g ∧
      g.direction = .angle (.ofNat 9007199254740991) ∧
      Json.Reader.whole Gradient.reader g.json =
        .ok { g with direction := .angle (.ofNat 9007199254740990) } ∧
      { g with direction := .angle (.ofNat 9007199254740990) } ≠ g := by
  let infinite : Text := "linear-gradient(1".toList ++ List.replicate 309 '0' ++ "deg, red)".toList
  let finite : Text := "linear-gradient(9007199254740991deg, red)".toList
  let red : Stop := ⟨"red".toList, none⟩
  refine ⟨⟨⟨.angle (.ranked false .top), [red], infinite⟩, ?_, ?_⟩,
    ⟨.angle (.ofNat 9007199254740991), [red], finite⟩, ?_, rfl, ?_, ?_⟩
  · exact Placement.eq_ok_of_toOption (by decide +kernel)
  · rw [Gradient.whole_reader]
    rfl
  · exact Placement.eq_ok_of_toOption (by decide +kernel)
  · have hrank : Binary64.ofNat 9007199254740991 =
        .ranked false (Binary64.nearestRank 9007199254740991) := by
      decide +kernel
    have hdecimal : Decimal.shortest .even (Binary64.nearestRank 9007199254740991) =
        ⟨9007199254740991, 0⟩ := by
      decide +kernel
    have hquotient : Binary64.ofNat 90071992547409910 / Json.Numeral.tenPow 1 =
        .ofNat 9007199254740990 := by
      decide +kernel
    have hrescaled : Json.rescaled? ⟨9007199254740991, 0⟩ = some (.ofNat 9007199254740990) :=
      (Json.Numeral.scale?_neg Nat.one_pos (by decide) _).trans (congrArg some hquotient)
    have hread : Json.reread (.ofNat 9007199254740991) = .ok (.ofNat 9007199254740990) := by
      rw [hrank, Json.reread, if_neg (by decide +kernel), if_neg (by decide +kernel), hdecimal,
        hrescaled]
      rfl
    rw [Gradient.whole_reader, Direction.reread, hread]
    rfl
  · decide +kernel

end LegacyGradient
