import Retrace.Json.Node
import Retrace.Json.Value
import Retrace.Text.Patch

/-!
# Patches as JSON

Positions, ranges and edits are records, and a patch is the array of its edits.  Reading a patch
refuses edits that are out of order.
-/

namespace Retrace

def Pos.toJson (p : Pos) : Json := .obj [("line_idx", .num p.line), ("char_idx", .num p.column)]

def Pos.ofNode? (n : Node) : Option Pos := do
  match ← n.record? ["line_idx", "char_idx"] with
  | [line, column] =>
    let line ← Node.required? (Node.nat? 0x100000000) line
    let column ← Node.required? (Node.nat? 0x100000000) column
    pure ⟨line, column⟩
  | _ => none

def Range.toJson (r : Range) : Json :=
  .obj [("start", r.start.toJson), ("end_exclusive", r.stop.toJson)]

def Range.ofNode? (n : Node) : Option Range := do
  match ← n.record? ["start", "end_exclusive"] with
  | [start, stop] =>
    let start ← Node.required? Pos.ofNode? start
    let stop ← Node.required? Pos.ofNode? stop
    pure ⟨start, stop⟩
  | _ => none

def Edit.toJson (e : Edit) : Json := .obj [("range", e.range.toJson), ("text", .str e.text)]

def Edit.ofNode? (n : Node) : Option Edit := do
  match ← n.record? ["range", "text"] with
  | [range, text] =>
    let range ← Node.required? Range.ofNode? range
    let text ← Node.required? Node.string? text
    pure ⟨range, text⟩
  | _ => none

namespace Patch

def toJson (p : Patch) : Json := .arr (p.edits.map Edit.toJson)

def ofNode? (n : Node) : Option Patch := do
  let edits ← n.list? Edit.ofNode?
  (ofEdits edits).toOption

/-- The patch that a JSON document spells, if its edits are in order. -/
def ofText? (s : String) : Option Patch := (Node.ofString? s).bind ofNode?

end Patch

end Retrace
