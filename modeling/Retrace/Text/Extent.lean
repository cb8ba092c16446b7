import Retrace.Text.Pos

/-!
# Extents: how far a text reaches

An `Extent` counts the line breaks of a text and the characters after the last of them.  Every
operation has two cases, and they always switch on the extent's own line count:

* `Extent.ofText` — measuring a text;
* `Extent.add` — the extent of one text after another;
* `Extent.endFrom` — where a text ends that starts at a given position;
* `Extent.between` — the extent that leads from one position to a later one.
-/

namespace Retrace

@[ext] structure Extent where
  lines : Nat
  columns : Nat
deriving DecidableEq, Repr, Inhabited

namespace Extent

def zero : Extent := ⟨0, 0⟩

instance : LT Extent where
  lt a b := a.lines < b.lines ∨ (a.lines = b.lines ∧ a.columns < b.columns)

instance : LE Extent where
  le a b := a.lines < b.lines ∨ (a.lines = b.lines ∧ a.columns ≤ b.columns)

instance (a b : Extent) : Decidable (a < b) :=
  inferInstanceAs (Decidable (a.lines < b.lines ∨ (a.lines = b.lines ∧ a.columns < b.columns)))

instance (a b : Extent) : Decidable (a ≤ b) :=
  inferInstanceAs (Decidable (a.lines < b.lines ∨ (a.lines = b.lines ∧ a.columns ≤ b.columns)))

instance : Ord Extent where
  compare a b := (compare a.lines b.lines).then (compare a.columns b.columns)

instance : ToString Extent where
  toString e := s!"{e.lines},{e.columns}"

/-- The extent with one more character at its end. -/
def push (e : Extent) (c : Char) : Extent :=
  if c = '\n' then ⟨e.lines + 1, 0⟩ else ⟨e.lines, e.columns + 1⟩

def ofText (text : List Char) : Extent := text.foldl push zero

def add (a b : Extent) : Extent :=
  if b.lines = 0 then ⟨a.lines, a.columns + b.columns⟩ else ⟨a.lines + b.lines, b.columns⟩

instance : Add Extent := ⟨add⟩

/-- The end of a text of extent `e` that starts at `p`. -/
def endFrom (e : Extent) (p : Pos) : Pos :=
  if e.lines = 0 then ⟨p.line, p.column + e.columns⟩ else ⟨p.line + e.lines, e.columns⟩

/-- The range of a text of extent `e` that starts at `p`. -/
def rangeFrom (e : Extent) (p : Pos) : Range := ⟨p, e.endFrom p⟩

/-- The way from `p` to a position `q` that does not precede it. -/
def between (p q : Pos) : Extent :=
  if p.line = q.line then ⟨0, q.column - p.column⟩ else ⟨q.line - p.line, q.column⟩

def ofRange (r : Range) : Extent := between r.start r.stop

/-- What has to be added to `a` to reach `b`, nothing if `b` is the shorter one. -/
def gap (a b : Extent) : Extent :=
  if b < a then zero
  else if a.lines = b.lines then ⟨0, b.columns - a.columns⟩
  else ⟨b.lines - a.lines, b.columns⟩

end Extent

end Retrace
