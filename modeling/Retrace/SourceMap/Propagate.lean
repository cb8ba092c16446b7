import Retrace.SourceMap.Segment
import Retrace.Text.Patch

/-!
# Carrying mappings through a patch

The patch is replayed over the lines of the old mappings: text between two edits keeps its segments,
moved to the column it now starts at, and inserted text comes from nowhere.

* `Propagation` — the lines written so far;
* `Propagation.copy`, `Propagation.insert` — old text and new text;
* `Mappings.applyPatch` — the mappings of the patched text.

A segment written at the column of the one before it takes its place, so no line has two segments
at one column next to each other.
-/

namespace Retrace

/-- The lines written so far, the last one and its segments first, and the column reached on it. -/
structure Propagation where
  finished : List (List Segment)
  current : List Segment
  column : Nat
deriving Repr

namespace Propagation

def start : Propagation := ⟨[], [], 0⟩

/-- All lines in order. -/
def lines (w : Propagation) : Mappings := (w.current.reverse :: w.finished).reverse

/-- Adds a segment, or replaces the last one if that stands at the same column. -/
def push (w : Propagation) (s : Segment) : Propagation :=
  match w.current with
  | last :: rest =>
    if last.column = s.column then { w with current := s :: rest }
    else { w with current := s :: last :: rest }
  | [] => { w with current := [s] }

def newLine (w : Propagation) : Propagation := ⟨w.current.reverse :: w.finished, [], 0⟩

/-- Where a segment stands after the text from column `start` on has moved to column `column`.
Columns are 32-bit numbers and wrap. -/
def movedColumn (column start : Nat) (s : Segment) : Nat :=
  (((s.column : Int) + column - start) % 0x100000000).toNat

/-- Copies the part of a line from column `start` up to `stop?`, or up to its end.  The segment that
is already open at `start` is carried over, and the end of the part is closed off. -/
def copyPart (w : Propagation) (line : List Segment) (start : Nat) (stop? : Option Nat) :
    Propagation :=
  let opened := (line.takeWhile fun s => s.column < start).getLast?
  let kept := (line.dropWhile fun s => s.column < start).takeWhile fun s =>
    stop?.all fun stop => s.column < stop
  -- what covers `start` in the old text covers the column reached in the new one
  let w₁ := (opened.map fun s => s.moveTo w.column).elim w w.push
  let w₂ := (kept.map fun s => s.moveTo (movedColumn w.column start s)).foldl push w₁
  match stop? with
  | none => w₂
  | some stop =>
    let w₃ := { w₂ with column := w₂.column + (stop - start) }
    w₃.push (Segment.unmapped w₃.column)

/-- Copies the old text from `start` up to column `stop?` of `line`, or up to the end of that
line. -/
def copy (w : Propagation) (m : Mappings) (start : Pos) (line : Nat) (stop? : Option Nat) :
    Propagation :=
  if start.line = line then w.copyPart (m.line start.line) start.column stop?
  else
    let w₁ := w.copyPart (m.line start.line) start.column none
    -- whole lines keep their columns
    let between := (List.range' (start.line + 1) (line - (start.line + 1))).map m.line
    let w₂ : Propagation := ⟨between.reverse ++ (w₁.current.reverse :: w₁.finished), [], 0⟩
    w₂.copyPart (m.line line) 0 stop?

/-- Writes new text of the given extent, which comes from nowhere. -/
def insert (w : Propagation) (e : Extent) : Propagation :=
  let w₁ := w.push (Segment.unmapped w.column)
  if e.lines = 0 then { w₁ with column := w₁.column + e.columns }
  else { Nat.repeat newLine e.lines w₁ with column := e.columns }

/-- Replays edits, the old text before `done` being written already. -/
def replay (m : Mappings) (w : Propagation) (done : Pos) : List Edit → Propagation × Pos
  | [] => (w, done)
  | e :: rest =>
    -- edits that touch leave no old text between them
    let w₁ :=
      if done < e.range.start then w.copy m done e.range.start.line (some e.range.start.column)
      else w
    replay m (w₁.insert (Extent.ofText e.text.toList)) e.range.stop rest

end Propagation

/-- The mappings of the text that `p` makes of the text of `m`. -/
def Mappings.applyPatch (m : Mappings) (p : Patch) : Mappings :=
  let (w, done) := Propagation.replay m Propagation.start Pos.zero p.normalize.edits
  (w.copy m done (max (m.length - 1) done.line) none).lines

end Retrace
