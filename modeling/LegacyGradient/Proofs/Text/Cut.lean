/-
  LegacyGradient.Proofs.Text.Cut

  Texts that are not cut. A text is uncut from a depth if no comma in it is at depth zero when it
  begins at that depth, and sealed from a depth if from there on it also leaves the depth as it was.
  Texts without a cut that are joined with commas are the pieces of the whole again (`pieces_join`),
  and the pieces of any text are of this kind (`joinable_pieces`).
-/
import LegacyGradient.Text.Cut

namespace LegacyGradient.Text

variable {s t u : Text} {ts : List Text} {depth least : Nat}

/-! ## Texts without a cut -/

/-- No comma is at depth zero in a text that begins at depth `depth`. -/
def Uncut : (depth : Nat) → Text → Prop
  | _, [] => True
  | depth, c :: t => ¬ (c = ',' ∧ depth = 0) ∧ Uncut (nesting depth c) t

theorem depthAfter_append (depth : Nat) (s t : Text) :
    depthAfter depth (s ++ t) = depthAfter (depthAfter depth s) t :=
  List.foldl_append

theorem uncut_append : Uncut depth (s ++ t) ↔ Uncut depth s ∧ Uncut (depthAfter depth s) t := by
  induction s generalizing depth with
  | nil => simp [Uncut, depthAfter]
  | cons c s ih => simp [Uncut, ih, depthAfter, and_assoc]

/-- What is not cut goes to the front of the first piece. -/
theorem piecesFrom_append (h : Uncut depth s) (t : Text) :
    piecesFrom depth (s ++ t) =
      (s ++ (piecesFrom (depthAfter depth s) t).1, (piecesFrom (depthAfter depth s) t).2) := by
  induction s generalizing depth with
  | nil => rfl
  | cons c s ih =>
    obtain ⟨hc, hs⟩ := h
    simp only [List.cons_append, piecesFrom, if_neg hc, ih hs]
    rfl

/-! ## Sealed texts -/

/-- Where at least `least` parentheses are open, no comma of the text is at depth zero, and the text
leaves the depth as it was. A text that is sealed from depth zero may stand anywhere. -/
def SealedFrom (least : Nat) (t : Text) : Prop :=
  ∀ depth, least ≤ depth → Uncut depth t ∧ depthAfter depth t = depth

theorem sealedFrom_nil : SealedFrom least [] := fun _ _ => ⟨trivial, rfl⟩

theorem SealedFrom.mono (h : SealedFrom least t) {least' : Nat} (hle : least ≤ least') :
    SealedFrom least' t :=
  fun depth hdepth => h depth (Nat.le_trans hle hdepth)

theorem SealedFrom.append (hs : SealedFrom least s) (ht : SealedFrom least t) :
    SealedFrom least (s ++ t) := by
  intro depth hdepth
  obtain ⟨hsUncut, hsAfter⟩ := hs depth hdepth
  obtain ⟨htUncut, htAfter⟩ := ht depth hdepth
  rw [uncut_append, depthAfter_append, hsAfter]
  exact ⟨⟨hsUncut, htUncut⟩, htAfter⟩

/-- Without parentheses a text is sealed wherever it has no comma, or at least one parenthesis is
open. -/
theorem sealedFrom_of_forall (h : ∀ c ∈ t, c ≠ '(' ∧ c ≠ ')' ∧ (c = ',' → 0 < least)) :
    SealedFrom least t := by
  induction t with
  | nil => exact sealedFrom_nil
  | cons c t ih =>
    intro depth hdepth
    obtain ⟨hopen, hclose, hcomma⟩ := h c (List.mem_cons_self ..)
    have hnest : nesting depth c = depth := by rw [nesting, if_neg hopen, if_neg hclose]
    obtain ⟨huncut, hafter⟩ := ih (fun c' hc' => h c' (List.mem_cons_of_mem _ hc')) depth hdepth
    constructor
    · refine ⟨?_, by rwa [hnest]⟩
      rintro ⟨rfl, rfl⟩
      exact absurd (hcomma rfl) (Nat.not_lt.2 hdepth)
    · rw [depthAfter, List.foldl_cons, hnest]
      exact hafter

/-- The same as a computation, for texts that are known. -/
theorem sealedFrom_of_all
    (h : t.all (fun c => c != '(' && c != ')' && (c != ',' || decide (0 < least))) = true) :
    SealedFrom least t := by
  apply sealedFrom_of_forall
  intro c hc
  have hc' := List.all_eq_true.1 h c hc
  simp only [Bool.and_eq_true, Bool.or_eq_true, bne_iff_ne, decide_eq_true_eq] at hc'
  obtain ⟨⟨hopen, hclose⟩, hcomma⟩ := hc'
  exact ⟨hopen, hclose, fun hc => hcomma.resolve_left fun hne => hne hc⟩

theorem sealedFrom_comma : SealedFrom 1 [','] := sealedFrom_of_all (by decide)

/-- A pair of parentheses seals what may stand between them. -/
theorem SealedFrom.parens (h : SealedFrom 1 t) : SealedFrom 0 ('(' :: (t ++ [')'])) := by
  intro depth _
  obtain ⟨huncut, hafter⟩ := h (depth + 1) (Nat.le_add_left ..)
  constructor
  · show ¬ ('(' = ',' ∧ depth = 0) ∧ Uncut (depth + 1) (t ++ [')'])
    rw [uncut_append]
    exact ⟨by simp, huncut, by simp [Uncut]⟩
  · show depthAfter (depth + 1) (t ++ [')']) = depth
    rw [depthAfter_append, hafter]
    rfl

/-- The texts over a class of characters that has no comma and no parenthesis may stand anywhere. -/
theorem sealedFrom_of_class {p : Char → Bool} (hcomma : p ',' = false) (hopen : p '(' = false)
    (hclose : p ')' = false) (h : ∀ c ∈ t, p c = true) : SealedFrom 0 t := by
  apply sealedFrom_of_forall
  intro c hc
  refine ⟨?_, ?_, ?_⟩
  · rintro rfl
    exact absurd ((h _ hc).symm.trans hopen) (by decide)
  · rintro rfl
    exact absurd ((h _ hc).symm.trans hclose) (by decide)
  · rintro rfl
    exact absurd ((h _ hc).symm.trans hcomma) (by decide)

/-! ## Joining and cutting -/

theorem join_cons_cons (separator s t : Text) (ts : List Text) :
    join separator (s :: t :: ts) = s ++ separator ++ join separator (t :: ts) := by
  simp [join, List.intercalate]

/-- All parts but the first come with the separator before them. -/
theorem join_cons (separator t : Text) (ts : List Text) :
    join separator (t :: ts) = t ++ ts.flatMap (separator ++ ·) := by
  induction ts generalizing t with
  | nil => simp [join, List.intercalate]
  | cons u ts ih => rw [join_cons_cons, ih, List.flatMap_cons, List.append_assoc, List.append_assoc]

/-- The blank after a comma may be counted to the part that follows. -/
theorem join_commaBlank (t : Text) (ts : List Text) :
    join commaBlank (t :: ts) = join [','] (t :: ts.map (' ' :: ·)) := by
  rw [join_cons, join_cons, List.flatMap_map]
  rfl

theorem join_append {ss ts : List Text} (hss : ss ≠ []) (hts : ts ≠ []) (separator : Text) :
    join separator (ss ++ ts) = join separator ss ++ separator ++ join separator ts := by
  obtain ⟨s, ss, rfl⟩ := List.exists_cons_of_ne_nil hss
  obtain ⟨t, ts, rfl⟩ := List.exists_cons_of_ne_nil hts
  simp only [List.cons_append, join_cons, List.flatMap_append, List.flatMap_cons, List.append_assoc]

/-- Parts that are not empty are not lost when they are joined. -/
theorem join_eq_nil_iff {separator : Text} (h : ∀ t ∈ ts, t ≠ []) :
    join separator ts = [] ↔ ts = [] := by
  cases ts with
  | nil => exact iff_of_true rfl rfl
  | cons t ts =>
    have ht := h t (List.mem_cons_self ..)
    simp [join_cons, ht]

theorem sealedFrom_join {separator : Text} (hseparator : SealedFrom least separator)
    (h : ∀ t ∈ ts, SealedFrom least t) : SealedFrom least (join separator ts) := by
  induction ts with
  | nil => exact sealedFrom_nil
  | cons t ts ih =>
    obtain ⟨ht, hts⟩ := List.forall_mem_cons.1 h
    cases ts with
    | nil => simpa [join, List.intercalate] using ht
    | cons u us =>
      rw [join_cons_cons]
      exact (ht.append hseparator).append (ih hts)

/-- Texts that are told apart again when they are joined with commas: none has a cut of its own, and
only the last may leave a parenthesis open. -/
structure Joinable (ts : List Text) : Prop where
  /-- No text has a comma at depth zero. -/
  uncut : ∀ t ∈ ts, Uncut 0 t
  /-- No text but the last leaves a parenthesis open. -/
  depthAfter : ∀ t ∈ ts.dropLast, depthAfter 0 t = 0

theorem joinable_nil : Joinable [] := ⟨by simp, by simp⟩

theorem joinable_cons_iff :
    Joinable (t :: ts) ↔ Uncut 0 t ∧ (ts ≠ [] → depthAfter 0 t = 0) ∧ Joinable ts := by
  cases ts with
  | nil =>
    constructor
    · intro h
      exact ⟨h.uncut t (by simp), by simp, joinable_nil⟩
    · rintro ⟨huncut, -, -⟩
      exact ⟨by simpa using huncut, by simp⟩
  | cons u us =>
    constructor
    · rintro ⟨huncut, hafter⟩
      rw [List.dropLast_cons_cons] at hafter
      exact ⟨huncut t (by simp), fun _ => hafter t (by simp), fun v hv => huncut v (by simp [hv]),
        fun v hv => hafter v (by simp [hv])⟩
    · rintro ⟨ht, hafter, hus⟩
      refine ⟨List.forall_mem_cons.2 ⟨ht, hus.uncut⟩, ?_⟩
      rw [List.dropLast_cons_cons]
      exact List.forall_mem_cons.2 ⟨hafter (by simp), hus.depthAfter⟩

theorem joinable_of_sealed (h : ∀ t ∈ ts, SealedFrom 0 t) : Joinable ts where
  uncut t ht := (h t ht 0 (Nat.le_refl 0)).1
  depthAfter t ht := (h t ((List.dropLast_sublist ts).subset ht) 0 (Nat.le_refl 0)).2

theorem Joinable.sublist {ts' : List Text} (h : Joinable ts) (hsub : ts'.Sublist ts) :
    Joinable ts' := by
  induction hsub with
  | slnil => exact h
  | cons t hsub ih => exact ih (joinable_cons_iff.1 h).2.2
  | cons_cons t hsub ih =>
    obtain ⟨ht, hafter, hrest⟩ := joinable_cons_iff.1 h
    refine joinable_cons_iff.2 ⟨ht, fun hne => hafter ?_, ih hrest⟩
    rintro rfl
    exact hne (List.sublist_nil.1 hsub)

theorem Joinable.map {f : Text → Text} (h : Joinable ts)
    (hf : ∀ t ∈ ts, Uncut 0 t →
      Uncut 0 (f t) ∧ (Text.depthAfter 0 t = 0 → Text.depthAfter 0 (f t) = 0)) :
    Joinable (ts.map f) where
  uncut t' ht' := by
    obtain ⟨t, ht, rfl⟩ := List.mem_map.1 ht'
    exact (hf t ht (h.uncut t ht)).1
  depthAfter t' ht' := by
    rw [← List.map_dropLast] at ht'
    obtain ⟨t, ht, rfl⟩ := List.mem_map.1 ht'
    have hmem := (List.dropLast_sublist ts).subset ht
    exact (hf t hmem (h.uncut t hmem)).2 (h.depthAfter t ht)

theorem pieces_of_uncut (h : Uncut 0 t) : pieces t = [t] := by
  have := piecesFrom_append h []
  simp only [List.append_nil, piecesFrom] at this
  rw [pieces, this]

theorem piecesFrom_append_comma (h : depthAfter depth t = 0) (u : Text) :
    piecesFrom depth (t ++ ',' :: u) =
      ((piecesFrom depth t).1, (piecesFrom depth t).2 ++ pieces u) := by
  induction t generalizing depth with
  | nil =>
    obtain rfl : depth = 0 := h
    rfl
  | cons c t ih =>
    rw [List.cons_append, piecesFrom, piecesFrom]
    by_cases hcut : c = ',' ∧ depth = 0
    · obtain ⟨rfl, rfl⟩ := hcut
      have ht : depthAfter 0 t = 0 := h
      rw [if_pos ⟨rfl, rfl⟩, if_pos ⟨rfl, rfl⟩, ih ht]
      rfl
    · rw [if_neg hcut, if_neg hcut, ih h]

/-- A comma where no parenthesis is open cuts, whatever stands before it and after it. -/
theorem pieces_append_comma (h : depthAfter 0 t = 0) (u : Text) :
    pieces (t ++ ',' :: u) = pieces t ++ pieces u := by
  rw [pieces, piecesFrom_append_comma h]
  rfl

/-- Cutting undoes joining with commas. -/
theorem pieces_join (hne : ts ≠ []) (h : Joinable ts) : pieces (join [','] ts) = ts := by
  induction ts with
  | nil => contradiction
  | cons t ts ih =>
    obtain ⟨ht, hafter, hts⟩ := joinable_cons_iff.1 h
    cases ts with
    | nil => simpa [join, List.intercalate] using pieces_of_uncut ht
    | cons u us =>
      rw [join_cons_cons, List.append_assoc, List.singleton_append,
        pieces_append_comma (hafter (by simp)), pieces_of_uncut ht, ih (by simp) hts,
        List.singleton_append]

/-- Sealed parts can be told from what they are joined to. -/
theorem join_commaBlank_inj {t' : Text} {ts' : List Text} (hts : ∀ u ∈ t :: ts, SealedFrom 0 u)
    (hts' : ∀ u ∈ t' :: ts', SealedFrom 0 u)
    (h : join commaBlank (t :: ts) = join commaBlank (t' :: ts')) : t = t' ∧ ts = ts' := by
  have hblank : ∀ {t : Text} {ts : List Text}, (∀ u ∈ t :: ts, SealedFrom 0 u) →
      Joinable (t :: ts.map (' ' :: ·)) := by
    intro t ts hts
    obtain ⟨ht, hts⟩ := List.forall_mem_cons.1 hts
    apply joinable_of_sealed
    refine List.forall_mem_cons.2 ⟨ht, fun u hu => ?_⟩
    obtain ⟨v, hv, rfl⟩ := List.mem_map.1 hu
    have hspace : SealedFrom 0 [' '] := sealedFrom_of_all (by decide)
    exact hspace.append (hts v hv)
  rw [join_commaBlank, join_commaBlank] at h
  have hpieces := congrArg pieces h
  rw [pieces_join (by simp) (hblank hts), pieces_join (by simp) (hblank hts')] at hpieces
  obtain ⟨ht, hrest⟩ := List.cons.inj hpieces
  exact ⟨ht, (List.map_inj_right fun _ _ huv => List.tail_eq_of_cons_eq huv).1 hrest⟩

theorem joinable_piecesFrom (depth : Nat) (t : Text) :
    Uncut depth (piecesFrom depth t).1 ∧
      ((piecesFrom depth t).2 ≠ [] → depthAfter depth (piecesFrom depth t).1 = 0) ∧
      Joinable (piecesFrom depth t).2 := by
  induction t generalizing depth with
  | nil => exact ⟨trivial, by simp [piecesFrom], joinable_nil⟩
  | cons c t ih =>
    rw [piecesFrom]
    by_cases hcut : c = ',' ∧ depth = 0
    · -- the piece that ends here is empty
      obtain ⟨rfl, rfl⟩ := hcut
      rw [if_pos ⟨rfl, rfl⟩]
      exact ⟨trivial, fun _ => rfl, joinable_cons_iff.2 (ih 0)⟩
    · rw [if_neg hcut]
      obtain ⟨huncut, hafter, hrest⟩ := ih (nesting depth c)
      exact ⟨⟨hcut, huncut⟩, hafter, hrest⟩

/-- What was cut can be joined. -/
theorem joinable_pieces (t : Text) : Joinable (pieces t) :=
  joinable_cons_iff.2 (joinable_piecesFrom 0 t)

end LegacyGradient.Text
