/-
  LegacyGradient.Binary64.Basic

  Binary floating point numbers of 64 bits. A number that is not NaN is a sign and a rank: the rank
  counts the numbers of that sign from zero up, so zero has rank 0, the least positive number has
  rank 1 and infinity has the last rank. Ranks fall into binades of 2^52 numbers, and the spacing
  doubles from one binade to the next, the first two apart, which share the spacing 2^-1074.

  The order compares signed ranks, so the two zeros are equal in it and NaN is comparable to
  nothing. `toRat` is the exact value; infinity counts as 2^1024 there, the number that its rank
  would stand for if the exponents went on, which makes rounding to infinity a case like any other.
-/

namespace LegacyGradient

namespace Binary64

/-! ## Ranks -/

/-- The number of ranks between two changes of the spacing, 2^52. -/
def binade : Nat := 0x10000000000000

/-- The rank of infinity. -/
def topRank : Nat := 2047 * binade

/-- The place of a number among the numbers of its sign, counted from zero. -/
abbrev Rank := Fin (topRank + 1)

/-- The rank of zero. -/
def Rank.zero : Rank := ⟨0, Nat.succ_pos _⟩

/-- The rank of infinity. -/
def Rank.top : Rank := ⟨topRank, Nat.lt_succ_self _⟩

/-- The value at a rank, as a multiple of 2^-1074. -/
def Rank.units (r : Rank) : Nat :=
  if r.val < 2 * binade then r.val
  else (binade + r.val % binade) <<< (r.val / binade - 1)

/-- The exact value at a rank. -/
def Rank.toRat (r : Rank) : Rat := mkRat r.units (1 <<< 1074)

end Binary64

/-- A floating point number: not a number, or a sign and a rank. -/
inductive Binary64 where
  /-- The result of an operation that has no value. -/
  | nan
  /-- The number with this sign and this rank. -/
  | ranked (negative : Bool) (rank : Binary64.Rank)
deriving DecidableEq

namespace Binary64

/-! ## Values and order -/

/-- A number is finite when it is neither NaN nor an infinity. -/
def IsFinite : Binary64 → Prop
  | nan => False
  | ranked _ r => r ≠ Rank.top

instance (x : Binary64) : Decidable x.IsFinite :=
  match x with
  | nan => isFalse id
  | ranked _ r => inferInstanceAs (Decidable (r ≠ Rank.top))

/-- The exact value of a finite number. -/
def toRat : Binary64 → Rat
  | nan => 0
  | ranked negative r => if negative then -r.toRat else r.toRat

/-- The rank with its sign, by which numbers are ordered. -/
def signedRank (negative : Bool) (r : Rank) : Int :=
  if negative then -(r.val : Int) else r.val

instance : LT Binary64 where
  lt
    | ranked s r, ranked s' r' => signedRank s r < signedRank s' r'
    | _, _ => False

instance : LE Binary64 where
  le
    | ranked s r, ranked s' r' => signedRank s r ≤ signedRank s' r'
    | _, _ => False

instance (x y : Binary64) : Decidable (x < y) :=
  match x, y with
  | ranked s r, ranked s' r' => inferInstanceAs (Decidable (signedRank s r < signedRank s' r'))
  | nan, _ => isFalse (by cases ‹Binary64› <;> exact id)
  | ranked _ _, nan => isFalse id

instance (x y : Binary64) : Decidable (x ≤ y) :=
  match x, y with
  | ranked s r, ranked s' r' => inferInstanceAs (Decidable (signedRank s r ≤ signedRank s' r'))
  | nan, _ => isFalse (by cases ‹Binary64› <;> exact id)
  | ranked _ _, nan => isFalse id

/-- Either of the two zeros. -/
def IsZero (x : Binary64) : Prop := x = ranked false .zero ∨ x = ranked true .zero

instance (x : Binary64) : Decidable x.IsZero :=
  inferInstanceAs (Decidable (_ ∨ _))

end Binary64

end LegacyGradient
