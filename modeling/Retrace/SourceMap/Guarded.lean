import Retrace.SourceMap.Propagate
import Retrace.Text.Guarded

/-!
# Guarded runs over mappings

A patch is carried out on mappings once more with every step that could go wrong checked: a
difference has to be one, a segment has to be there, and old text is copied up to a place that does
not come before the one where it starts.  A run in which a check fails has no result.

* `Segment.countBelow` — the place of a column in a line, found by halving;
* `Propagation.copyPart?`, `Propagation.copy?`, `Propagation.replay?` — copying old text, and the
  run over all edits;
* `Mappings.applyPatch?` — the mappings of the patched text.

Lines need not be sorted.  Where a column is found by halving, a line that is not sorted gives some
place within it.
-/

namespace Retrace

namespace Segment

/-- The number of segments in front of column `c`. -/
def countBelow (segments : List Segment) (c : Nat) : Nat :=
  bisect (fun i => segments[i]?.any fun s => s.column < c) 0 segments.length

/-- The segments of a line without the first `n`, if it has that many. -/
def from? (line : List Segment) (n : Nat) : Option (List Segment) :=
  if n ≤ line.length then some (line.drop n) else none

/-- The column of a segment after the text from column `start` on has moved to column `column`, not
yet cut to 32 bits. -/
def shifted (column start : Nat) (s : Segment) : Int := (s.column : Int) + ((column : Int) - start)

end Segment

namespace Propagation

/-- The last of the first `n` segments goes on at the column reached. -/
def carryOver? (w : Propagation) (segments : List Segment) (n : Nat) : Option Propagation :=
  if 0 < n then segments[n - 1]?.map fun s => w.push (s.moveTo w.column) else some w

/-- Copies the part of a line from column `start` up to `stop?`, or up to its end. -/
def copyPart? (w : Propagation) (line : List Segment) (start : Nat) (stop? : Option Nat) :
    Option Propagation := do
  let first := Segment.countBelow line start
  let w₁ ← w.carryOver? line first
  let kept := (← Segment.from? line first).takeWhile fun s => stop?.all fun stop => s.column < stop
  -- columns are cut to 32 bits, whatever the shift makes of them
  let move := fun s : Segment => s.moveTo (s.shifted w.column start % 0x100000000).toNat
  let w₂ := (kept.map move).foldl push w₁
  match stop? with
  | none => pure w₂
  | some stop =>
    let column := w₂.column + (← minus? stop start)
    pure ({ w₂ with column := column }.push (Segment.unmapped column))

/-- The stretch from `start` to column `stop?` of `line`, or to the end of that line, does not end
before it starts. -/
def Ahead (start : Pos) (line : Nat) (stop? : Option Nat) : Prop :=
  start ≤ ⟨line, stop?.getD start.column⟩

instance (start : Pos) (line : Nat) (stop? : Option Nat) : Decidable (Ahead start line stop?) :=
  inferInstanceAs (Decidable (_ ≤ _))

/-- Copies the old text from `start` up to column `stop?` of `line`, or up to the end of that
line. -/
def copy? (w : Propagation) (m : Mappings) (start : Pos) (line : Nat) (stop? : Option Nat) :
    Option Propagation :=
  if Ahead start line stop? then
    if start.line = line then w.copyPart? (m.line start.line) start.column stop?
    else do
      let w₁ ← w.copyPart? (m.line start.line) start.column none
      let between := (List.range' (start.line + 1) (line - (start.line + 1))).map m.line
      let w₂ : Propagation := ⟨between.reverse ++ (w₁.current.reverse :: w₁.finished), [], 0⟩
      w₂.copyPart? (m.line line) 0 stop?
  else none

/-- Copies the old text between two positions, if the second is behind the first. -/
def catchUp? (w : Propagation) (m : Mappings) (done start : Pos) : Option Propagation :=
  if done < start then w.copy? m done start.line (some start.column) else some w

/-- Replays edits, the old text before `done` being written already. -/
def replay? (m : Mappings) (w : Propagation) (done : Pos) : List Edit → Option (Propagation × Pos)
  | [] => some (w, done)
  | e :: rest => do
    let w₁ ← w.catchUp? m done e.range.start
    replay? m (w₁.insert (Extent.ofText e.text.toList)) e.range.stop rest

end Propagation

/-- The mappings of the text that `p` makes of the text of `m`. -/
def Mappings.applyPatch? (m : Mappings) (p : Patch) : Option Mappings := do
  let (w, done) ← Propagation.replay? m Propagation.start Pos.zero p.normalize.edits
  let w₁ ← w.copy? m done (max (m.length - 1) done.line) none
  pure w₁.lines

end Retrace
