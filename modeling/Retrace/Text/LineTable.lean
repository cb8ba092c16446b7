import Retrace.Text.Span

/-!
# Line tables

The lines of a text are found once, and then positions and offsets are converted by looking at one
line alone.

* `Text.charOffsets` — the characters of a text with the offsets at which they start;
* `bisect` — the first place where a predicate does not hold any more, found by halving;
* `LineTable` — a text and the offsets at which its lines start;
* `LineTable.offsetOf?`, `LineTable.posOf?` — from positions to offsets and back;
* `LineTable.spanOf?`, `LineTable.rangeOf?`, `LineTable.extentOf?` — the same for ranges.

A conversion has no answer where it would have to cut the text within a character or past its end.
Lines and columns are cut to 32 bits where they come from counting.
-/

namespace Retrace

/-- The characters of a text that starts at the offset `o`, each with its own offset. -/
def Text.charOffsets (o : Nat) : List Char → List (Nat × Char)
  | [] => []
  | c :: cs => (o, c) :: charOffsets (o + c.utf8Size) cs

/-- The offsets behind the line feeds of a text that starts at the offset `o`. -/
def Text.breaks (o : Nat) (text : List Char) : List Nat :=
  ((charOffsets o text).filter fun c => c.2 = '\n').map fun c => c.1 + 1

/-- The first number from `low` on at which `p` does not hold, and `high` if there is none below it.
The numbers at which `p` holds have to come first. -/
def bisect (p : Nat → Bool) (low high : Nat) : Nat :=
  if low < high then
    let middle := (low + high) / 2
    if p middle then bisect p (middle + 1) high else bisect p low middle
  else low
termination_by high - low

/-- A text with the offsets at which its lines start. -/
structure LineTable where
  text : List Char
  starts : List Nat
deriving DecidableEq, Repr

namespace LineTable

/-- The first line starts where the text does, and one more behind each line feed. -/
def ofText (text : List Char) : LineTable := ⟨text, 0 :: Text.breaks 0 text⟩

def lineCount (t : LineTable) : Nat := t.starts.length

/-- The bytes of a line, without the line feed that ends it. -/
def lineSpan? (t : LineTable) (line : Nat) : Option Span :=
  t.starts[line]?.map fun start =>
    ⟨start, t.starts[line + 1]?.elim (Text.byteLength t.text) (· - 1)⟩

/-- The byte offset of `p`, moved back to the end of its line or of the text if it lies beyond. -/
def offsetOf? (t : LineTable) (p : Pos) : Option Nat :=
  if t.starts.length ≤ p.line then some (Text.byteLength t.text)
  else do
    let span ← t.lineSpan? p.line
    let line ← span.substring? t.text
    pure ((Text.charOffsets span.start line)[p.column]?.elim span.stop Prod.fst)

/-- The position of the first character that does not start in front of the offset `o`. -/
def posOf? (t : LineTable) (o : Nat) : Option Pos := do
  let line := bisect (fun i => t.starts.getD i 0 ≤ o) 0 t.starts.length - 1
  let start ← t.starts[line]?
  let rest ← Span.substring? ⟨start, Text.byteLength t.text⟩ t.text
  let column := ((Text.charOffsets start rest).takeWhile fun c => c.1 < o).length
  pure ⟨line % 0x100000000, column % 0x100000000⟩

def spanOf? (t : LineTable) (r : Range) : Option Span := do
  pure ⟨← t.offsetOf? r.start, ← t.offsetOf? r.stop⟩

def rangeOf? (t : LineTable) (s : Span) : Option Range := do
  pure ⟨← t.posOf? s.start, ← t.posOf? s.stop⟩

/-- The extent of the text that a span covers. -/
def extentOf? (t : LineTable) (s : Span) : Option Extent := (t.rangeOf? s).map Extent.ofRange

/-- The extent of the whole text, which its last line tells. -/
def extent? (t : LineTable) : Option Extent := do
  let last := t.starts.length - 1
  let line ← (← t.lineSpan? last).substring? t.text
  pure ⟨last % 0x100000000, line.length % 0x100000000⟩

end LineTable

end Retrace
