import Retrace.Text.LineTable
import Retrace.Text.Patch
import Retrace.Word

/-!
# Guarded runs over texts

The new ranges of a patch and the edited text are worked out once more with every step that could go
wrong checked: a sum stays within its width, a difference is not below zero, and a text is cut at the
boundaries of its characters only.  A run in which a check fails has no result.

* `Extent.ofText?`, `Extent.endFrom?` — the extent of a text, and where the text ends;
* `Patch.newRangesIn?` — where the new texts stand, in numbers of a given width;
* `Patch.newRanges?` — the same in exact numbers;
* `Patch.applied?` — the edited text.
-/

namespace Retrace

/-! ## Extents -/

namespace Extent

/-- The extent with one more character at its end. -/
def push? (k : Width) (e : Extent) (c : Char) : Option Extent :=
  if c = '\n' then (k.plus? e.lines 1).map fun lines => ⟨lines, 0⟩
  else (k.plus? e.columns 1).map fun columns => ⟨e.lines, columns⟩

def ofText? (k : Width) (text : List Char) : Option Extent := text.foldlM (push? k) zero

/-- The end of a text of extent `e` that starts at `p`. -/
def endFrom? (k : Width) (e : Extent) (p : Pos) : Option Pos :=
  if e.lines = 0 then (k.plus? p.column e.columns).map fun column => ⟨p.line, column⟩
  else (k.plus? p.line e.lines).map fun line => ⟨line, e.columns⟩

end Extent

/-! ## New ranges -/

namespace Patch

/-- Where the start of the next edit stands, given where the end of the previous one went. -/
def shift? (k : Width) (prevOld prevNew start : Pos) : Option Pos :=
  if start.line = prevOld.line then do
    let columns ← minus? start.column prevOld.column
    let column ← k.plus? prevNew.column columns
    pure ⟨prevNew.line, column⟩
  else do
    -- the sum comes first and may be too wide where the line itself is not
    let sum ← k.plus? start.line prevNew.line
    let line ← minus? sum prevOld.line
    pure ⟨line, start.column⟩

def newRangesFrom? (k : Width) (prevOld prevNew : Pos) : List Edit → Option (List Range)
  | [] => some []
  | e :: rest => do
    let start ← shift? k prevOld prevNew e.range.start
    let length ← Extent.ofText? k e.text.toList
    let stop ← length.endFrom? k start
    let more ← newRangesFrom? k e.range.stop stop rest
    pure (⟨start, stop⟩ :: more)

/-- The ranges that the replacement texts occupy in the edited text, in numbers of a width. -/
def newRangesIn? (k : Width) (p : Patch) : Option (List Range) :=
  newRangesFrom? k Pos.zero Pos.zero p.edits

/-- The ranges that the replacement texts occupy in the edited text. -/
def newRanges? (p : Patch) : Option (List Range) := p.newRangesIn? .exact

/-! ## The edited text -/

/-- The text of a table between two offsets, if the second is behind the first. -/
def kept? (t : LineTable) (done start : Nat) : Option (List Char) :=
  if done < start then Span.substring? ⟨done, start⟩ t.text else some []

/-- Copies the text of a table with the edits carried out; what precedes offset `done` is behind
already. -/
def applyFrom? (t : LineTable) (done : Nat) : List Edit → Option (List Char)
  | [] => Span.substring? ⟨done, Text.byteLength t.text⟩ t.text
  | e :: rest => do
    let span ← t.spanOf? e.range
    let kept ← kept? t done span.start
    let more ← applyFrom? t (max done span.stop) rest
    pure (kept ++ e.text.toList ++ more)

def applied? (p : Patch) (text : String) : Option String :=
  (applyFrom? (LineTable.ofText text.toList) 0 p.edits).map String.ofList

end Patch

end Retrace
