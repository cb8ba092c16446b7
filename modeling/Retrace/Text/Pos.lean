/-!
# Positions and ranges in a text

* `Pos` — a zero-based line and column, ordered line first;
* `Range` — the half-open stretch between two positions, possibly written backwards;
* `Range.cover`, `Range.Contains` — joining ranges and membership.

Columns count characters.  A range is plain data: whoever needs its ends in order says so
(`Range.Forward`).
-/

namespace Retrace

/-! ## Positions -/

@[ext] structure Pos where
  line : Nat
  column : Nat
deriving DecidableEq, Repr, Inhabited

namespace Pos

def zero : Pos := ⟨0, 0⟩

instance : LT Pos where
  lt p q := p.line < q.line ∨ (p.line = q.line ∧ p.column < q.column)

instance : LE Pos where
  le p q := p.line < q.line ∨ (p.line = q.line ∧ p.column ≤ q.column)

instance (p q : Pos) : Decidable (p < q) :=
  inferInstanceAs (Decidable (p.line < q.line ∨ (p.line = q.line ∧ p.column < q.column)))

instance (p q : Pos) : Decidable (p ≤ q) :=
  inferInstanceAs (Decidable (p.line < q.line ∨ (p.line = q.line ∧ p.column ≤ q.column)))

instance : Ord Pos where
  compare p q := (compare p.line q.line).then (compare p.column q.column)

instance : Min Pos := minOfLe

instance : Max Pos := maxOfLe

instance : ToString Pos where
  toString p := s!"({p.line}, {p.column})"

theorem lt_iff {p q : Pos} :
    p < q ↔ p.line < q.line ∨ (p.line = q.line ∧ p.column < q.column) := Iff.rfl

theorem le_iff {p q : Pos} :
    p ≤ q ↔ p.line < q.line ∨ (p.line = q.line ∧ p.column ≤ q.column) := Iff.rfl

theorem le_refl (p : Pos) : p ≤ p := Or.inr ⟨rfl, Nat.le_refl _⟩

theorem le_trans {p q r : Pos} (h₁ : p ≤ q) (h₂ : q ≤ r) : p ≤ r := by
  rw [le_iff] at *
  omega

theorem le_antisymm {p q : Pos} (h₁ : p ≤ q) (h₂ : q ≤ p) : p = q := by
  rw [le_iff] at *
  ext <;> omega

theorem not_lt {p q : Pos} : ¬ p < q ↔ q ≤ p := by
  rw [lt_iff, le_iff]
  omega

theorem max_eq_right {p q : Pos} (h : p ≤ q) : max p q = q := if_pos h

theorem min_eq_left {p q : Pos} (h : p ≤ q) : min p q = p := if_pos h

/-- The position just past a character that stands at `p`. -/
def next (p : Pos) (c : Char) : Pos :=
  if c = '\n' then ⟨p.line + 1, 0⟩ else ⟨p.line, p.column + 1⟩

end Pos

/-! ## Ranges -/

@[ext] structure Range where
  start : Pos
  stop : Pos
deriving DecidableEq, Repr, Inhabited

namespace Range

def emptyAt (p : Pos) : Range := ⟨p, p⟩

def IsEmpty (r : Range) : Prop := r.start = r.stop

instance (r : Range) : Decidable r.IsEmpty := inferInstanceAs (Decidable (r.start = r.stop))

def OnOneLine (r : Range) : Prop := r.start.line = r.stop.line

instance (r : Range) : Decidable r.OnOneLine :=
  inferInstanceAs (Decidable (r.start.line = r.stop.line))

/-- The ends are in order. -/
def Forward (r : Range) : Prop := r.start ≤ r.stop

instance (r : Range) : Decidable r.Forward := inferInstanceAs (Decidable (r.start ≤ r.stop))

/-- The start belongs to a range and the stop does not. -/
def Contains (r : Range) (p : Pos) : Prop := r.start ≤ p ∧ p < r.stop

instance (r : Range) (p : Pos) : Decidable (r.Contains p) :=
  inferInstanceAs (Decidable (r.start ≤ p ∧ p < r.stop))

/-- The least range that covers both. -/
def cover (r s : Range) : Range := ⟨min r.start s.start, max r.stop s.stop⟩

/-- By start, then by stop. -/
instance : Ord Range where
  compare r s := (compare r.start s.start).then (compare r.stop s.stop)

instance : ToString Range where
  toString r := s!"[{r.start}, {r.stop})"

theorem cover_of_touch {r s : Range} (hr : r.Forward) (hs : s.Forward) (h : r.stop = s.start) :
    r.cover s = ⟨r.start, s.stop⟩ := by
  unfold cover Forward at *
  rw [Pos.min_eq_left (h ▸ hr), Pos.max_eq_right (h ▸ hs)]

end Range

end Retrace
