import Retrace.Text.Extent

/-!
# Byte spans and the positions they stand for

Offsets count the bytes of the UTF-8 form of a text, positions count lines and characters.

* `Span` — a half-open range of byte offsets, possibly reversed, with its small algebra;
* `Text.offsetOf`, `Text.posOf` — from positions to offsets and back;
* `Text.takeBytes`, `Text.dropBytes`, `Span.substring?` — cutting a text at byte offsets.

Both conversions are total.  A column past the end of its line means the end of that line, a line
past the last one means the end of the text, an offset inside a character means the boundary after
it, and an offset past the end means the end.
-/

namespace Retrace

/-! ## Spans -/

structure Span where
  start : Nat
  stop : Nat
deriving DecidableEq, Repr, Inhabited

namespace Span

/-- Refuses reversed bounds. -/
def ofBounds? (start stop : Nat) : Option Span :=
  if start ≤ stop then some ⟨start, stop⟩ else none

def ofLength (length : Nat) : Span := ⟨0, length⟩

def ofStartLength (start length : Nat) : Span := ⟨start, start + length⟩

def IsEmpty (s : Span) : Prop := s.start = s.stop

instance (s : Span) : Decidable s.IsEmpty := inferInstanceAs (Decidable (s.start = s.stop))

/-- The number of bytes covered, if the span is not reversed. -/
def length? (s : Span) : Option Nat :=
  if s.start ≤ s.stop then some (s.stop - s.start) else none

def Contains (s : Span) (o : Nat) : Prop := s.start ≤ o ∧ o < s.stop

instance (s : Span) (o : Nat) : Decidable (s.Contains o) :=
  inferInstanceAs (Decidable (s.start ≤ o ∧ o < s.stop))

/-- The bounds of `t` lie within those of `s`. -/
def Encloses (s t : Span) : Prop := s.start ≤ t.start ∧ t.stop ≤ s.stop

instance (s t : Span) : Decidable (s.Encloses t) :=
  inferInstanceAs (Decidable (s.start ≤ t.start ∧ t.stop ≤ s.stop))

/-- The least span that covers both. -/
def cover (s t : Span) : Span := ⟨min s.start t.start, max s.stop t.stop⟩

/-- The common part: empty where the spans only touch, `none` where a gap parts them. -/
def inter? (s t : Span) : Option Span := ofBounds? (max s.start t.start) (min s.stop t.stop)

/-- Some byte lies in both. -/
def Overlaps (s t : Span) : Prop := max s.start t.start < min s.stop t.stop

instance (s t : Span) : Decidable (s.Overlaps t) :=
  inferInstanceAs (Decidable (max s.start t.start < min s.stop t.stop))

/-- The one ends no later than the other starts. -/
def Precedes (s t : Span) : Prop := s.stop ≤ t.start

instance (s t : Span) : Decidable (s.Precedes t) := inferInstanceAs (Decidable (s.stop ≤ t.start))

instance : ToString Span where
  toString s := s!"[{s.start}, {s.stop})"

end Span

namespace Text

/-! ## Cutting at byte offsets -/

/-- The number of bytes of the UTF-8 form. -/
def byteLength : List Char → Nat
  | [] => 0
  | c :: cs => c.utf8Size + byteLength cs

/-- The characters from offset `n` on.  A character that straddles `n` is dropped. -/
def dropBytes : Nat → List Char → List Char
  | _, [] => []
  | 0, c :: cs => c :: cs
  | n + 1, c :: cs => dropBytes (n + 1 - c.utf8Size) cs

/-- The characters before offset `n`.  A character that straddles `n` is kept. -/
def takeBytes : Nat → List Char → List Char
  | _, [] => []
  | 0, _ :: _ => []
  | n + 1, c :: cs => c :: takeBytes (n + 1 - c.utf8Size) cs

/-- The text before offset `n` and the text after it, if `n` falls on a character boundary. -/
def splitBytes? : Nat → List Char → Option (List Char × List Char)
  | 0, cs => some ([], cs)
  | _ + 1, [] => none
  | n + 1, c :: cs =>
    if n + 1 < c.utf8Size then none
    else (splitBytes? (n + 1 - c.utf8Size) cs).map fun (front, back) => (c :: front, back)

/-! ## Offsets and positions -/

/-- The byte offset of `p`, moved back to the end of its line or of the text if it lies beyond. -/
def offsetOf : List Char → Pos → Nat
  | [], _ => 0
  | _ :: _, ⟨0, 0⟩ => 0
  | c :: cs, ⟨0, k + 1⟩ => if c = '\n' then 0 else c.utf8Size + offsetOf cs ⟨0, k⟩
  | c :: cs, ⟨l + 1, k⟩ =>
    c.utf8Size + (if c = '\n' then offsetOf cs ⟨l, k⟩ else offsetOf cs ⟨l + 1, k⟩)

/-- The position reached from `p` by reading characters until `n` bytes are behind. -/
def posFrom (p : Pos) : List Char → Nat → Pos
  | [], _ => p
  | _ :: _, 0 => p
  | c :: cs, n + 1 => posFrom (p.next c) cs (n + 1 - c.utf8Size)

def posOf (text : List Char) (o : Nat) : Pos := posFrom Pos.zero text o

def lineCount (text : List Char) : Nat := text.count '\n' + 1

def spanOf (text : List Char) (r : Range) : Span := ⟨offsetOf text r.start, offsetOf text r.stop⟩

def rangeOf (text : List Char) (s : Span) : Range := ⟨posOf text s.start, posOf text s.stop⟩

/-- The extent of the text that a span covers. -/
def extentOf (text : List Char) (s : Span) : Extent := Extent.ofRange (rangeOf text s)

end Text

/-- The text a span covers, unless it is reversed, out of bounds or cuts a character. -/
def Span.substring? (s : Span) (text : List Char) : Option (List Char) := do
  let length ← s.length?
  let (_, back) ← Text.splitBytes? s.start text
  let (front, _) ← Text.splitBytes? length back
  pure front

end Retrace
