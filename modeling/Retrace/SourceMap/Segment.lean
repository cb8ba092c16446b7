/-!
# Segments of a generated line

* `Origin` — a place in one of the sources, with a name if there is one;
* `Segment` — the generated column from which an origin, or none, holds;
* `Mappings` — the segments of every generated line;
* `Mappings.covering?` — the segment that covers a generated position.

Lines are sorted by column.  Lookups take the segments up to a column from the front and rely on
that.
-/

namespace Retrace

structure Origin where
  source : Nat
  line : Nat
  column : Nat
  name : Option Nat
deriving DecidableEq, Repr, Inhabited

/-- The text from `column` on comes from `origin`, or from nowhere. -/
structure Segment where
  column : Nat
  origin : Option Origin
deriving DecidableEq, Repr, Inhabited

namespace Segment

def unmapped (column : Nat) : Segment := ⟨column, none⟩

/-- The same segment at another column. -/
def moveTo (s : Segment) (column : Nat) : Segment := { s with column := column }

end Segment

abbrev Mappings := List (List Segment)

namespace Mappings

/-- The segments of a line, none for a line past the last one. -/
def line (m : Mappings) (i : Nat) : List Segment := m.getD i []

/-- The last segment of its line that starts at or before `p`. -/
def covering? (m : Mappings) (p : Nat × Nat) : Option Segment :=
  ((m.line p.1).takeWhile fun s => s.column ≤ p.2).getLast?

/-- Where the text at a generated line and column comes from. -/
def lookup (m : Mappings) (line column : Nat) : Option Origin :=
  (m.covering? (line, column)).bind Segment.origin

end Mappings

end Retrace
