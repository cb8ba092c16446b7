import Retrace.Error
import Retrace.SourceMap.Segment
import Retrace.SourceMap.Vlq
import Retrace.Text.Utf8

/-!
# The text form of mappings

Lines end in `;`, the segments of a line are parted by `,`, and a segment is one, four or five
numbers, each the difference to the one before it of its kind.  The generated column starts over on
every line; the other four run on through the whole text, and a segment without a field leaves that
field's total alone.

* `Totals` — the four running numbers;
* `Mappings.encode`, `Mappings.decode` — writing and reading the text form;
* `Segment.ofFields` — a segment from the differences it is written as;
* `Mappings.scan` — reading in one pass, without cutting the text up first.

Reading takes the text as bytes, because the places in errors count bytes.  Sums are 64-bit numbers
that have to end up as 32-bit ones.
-/

namespace Retrace

/-- The numbers that run on from segment to segment. -/
structure Totals where
  source : Int
  line : Int
  column : Int
  name : Int
deriving DecidableEq, Repr

namespace Totals

def zero : Totals := ⟨0, 0, 0, 0⟩

/-- The totals after a segment of origin `o`. -/
def after (t : Totals) (o : Origin) : Totals where
  source := o.source
  line := o.line
  column := o.column
  name := (o.name.map Int.ofNat).getD t.name

end Totals

/-! ## Writing -/

namespace Segment

/-- The differences that stand for a segment, given the column and totals before it. -/
def fields (t : Totals) (column : Nat) (s : Segment) : List Int :=
  ((s.column : Int) - column) ::
    match s.origin with
    | none => []
    | some o =>
      [(o.source : Int) - t.source, (o.line : Int) - t.line, (o.column : Int) - t.column]
        ++ (o.name.map fun n => (n : Int) - t.name).toList

/-- The totals after a segment. -/
def advance (t : Totals) (s : Segment) : Totals :=
  match s.origin with
  | none => t
  | some o => t.after o

end Segment

namespace Mappings

/-- The text of every segment of a line, and the totals after the line. -/
def lineTexts (t : Totals) (column : Nat) : List Segment → List (List Char) × Totals
  | [] => ([], t)
  | s :: rest =>
    let (texts, last) := lineTexts (s.advance t) s.column rest
    ((s.fields t column).flatMap Vlq.encode :: texts, last)

/-- The text of every line. -/
def texts (t : Totals) : Mappings → List (List Char)
  | [] => []
  | line :: rest =>
    let (segments, next) := lineTexts t 0 line
    List.intercalate [','] segments :: texts next rest

def encodeChars (m : Mappings) : List Char := List.intercalate [';'] (texts Totals.zero m)

def encode (m : Mappings) : String := String.ofList (encodeChars m)

end Mappings

/-! ## Reading -/

/-- A total after one more difference, as long as it fits into a 64-bit word. -/
def accumulate (total delta : Int) (field : SegmentField) (stop : Nat) : Except Error Int :=
  let sum := total + delta
  if -0x8000000000000000 ≤ sum ∧ sum < 0x8000000000000000 then .ok sum
  else .error (.invalidSourceMap (.overflow field stop))

/-- A total that is a 32-bit number. -/
def index (value : Int) (field : SegmentField) (stop : Nat) : Except Error Nat :=
  if 0 ≤ value ∧ value < 0x100000000 then .ok value.toNat
  else .error (.invalidSourceMap (.outOfRange field value stop))

namespace Segment

/-- The differences that a piece of text consists of, at most `room` of them.  The piece ends at
offset `stop` of the whole. -/
def readFields (stop room : Nat) (piece : List UInt8) : Except Error (List Int) :=
  match piece with
  | [] => .ok []
  | _ :: _ =>
    match room with
    | 0 => .error (.invalidSourceMap (.tooManyFields (stop - piece.length)))
    | room + 1 =>
      match Vlq.read piece with
      | .error at? => .error (.invalidVlq (stop - piece.length + at?))
      | .ok (v, rest) => do
        let values ← readFields stop room rest
        pure (v :: values)

/-- The segment that some differences stand for, and the totals after it. -/
def ofFields (t : Totals) (column : Nat) (stop : Nat) (fields : List Int) :
    Except Error (Segment × Totals) := do
  -- the column is checked before the number of fields
  let moved ← accumulate column (fields.headD 0) .generatedColumn stop
  let column ← index moved .generatedColumn stop
  match fields with
  | [_] => pure (unmapped column, t)
  | _ :: dSource :: dLine :: dColumn :: named =>
    let source ← accumulate t.source dSource .sourceIndex stop
    let line ← accumulate t.line dLine .sourceLine stop
    let sourceColumn ← accumulate t.column dColumn .sourceColumn stop
    let origin : Origin :=
      { source := ← index source .sourceIndex stop
        line := ← index line .sourceLine stop
        column := ← index sourceColumn .sourceColumn stop
        name := none }
    match named with
    | [] => pure (⟨column, some origin⟩, t.after origin)
    | dName :: _ =>
      let name ← accumulate t.name dName .nameIndex stop
      let origin := { origin with name := some (← index name .nameIndex stop) }
      pure (⟨column, some origin⟩, t.after origin)
  | _ => throw (.invalidSourceMap (.fieldCount fields.length stop))

end Segment

namespace Mappings

/-- The stretches between separators, each with the offset at which it ends. -/
def pieces (separator : UInt8) (start : Nat) : List UInt8 → List (List UInt8 × Nat)
  | [] => [([], start)]
  | b :: rest =>
    if b = separator then ([], start) :: pieces separator (start + 1) rest
    else
      match pieces separator (start + 1) rest with
      | [] => [([b], start + 1)]
      | (piece, stop) :: others => (b :: piece, stop) :: others

/-- The segments that the pieces of a line stand for, and the totals after the line. -/
def decodeLine (t : Totals) (column : Nat) :
    List (List UInt8 × Nat) → Except Error (List Segment × Totals)
  | [] => .ok ([], t)
  | ([], _) :: rest => decodeLine t column rest
  | (piece, stop) :: rest => do
    let fields ← Segment.readFields stop 5 piece
    let (segment, next) ← Segment.ofFields t column stop fields
    let (segments, last) ← decodeLine next segment.column rest
    pure (segment :: segments, last)

def decodeLines (t : Totals) : List (List UInt8 × Nat) → Except Error Mappings
  | [] => .ok []
  | (line, stop) :: rest => do
    let (segments, next) ← decodeLine t 0 (pieces 44 (stop - line.length) line)
    let lines ← decodeLines next rest
    pure (segments :: lines)

/-- The mappings that a text stands for.  An empty text is one empty line. -/
def decode (text : String) : Except Error Mappings :=
  decodeLines Totals.zero (pieces 59 0 (Utf8.ofString text))

end Mappings

/-! ## Reading in one pass

A cursor goes through the bytes of a line: `pos` is the offset of the first byte that is left.  The
only bound of a number is the end of its line. -/

namespace Segment

/-- The differences from the cursor on, at most `room` of them, with the cursor and the bytes after
them.  A comma or the end of the line ends them. -/
def scanFields (pos room : Nat) (line : List UInt8) : Except Error (List Int × Nat × List UInt8) :=
  match line with
  | [] => .ok ([], pos, [])
  | b :: _ =>
    if b = 44 then .ok ([], pos, line)
    else
      match room with
      | 0 => .error (.invalidSourceMap (.tooManyFields pos))
      | room + 1 =>
        match Vlq.read line with
        | .error at? => .error (.invalidVlq (pos + at?))
        | .ok (v, rest) =>
          match scanFields (pos + (line.length - rest.length)) room rest with
          | .error e => .error e
          | .ok (values, stop, more) => .ok (v :: values, stop, more)

/-- Unless the cursor stands at a comma, there is a number. -/
theorem exists_read_of_scanFields {pos room stop : Nat} {b : UInt8} {bytes more : List UInt8}
    {values : List Int} (hb : ¬ b = 44)
    (h : scanFields pos room (b :: bytes) = .ok (values, stop, more)) :
    ∃ left v rest values', room = left + 1 ∧ Vlq.read (b :: bytes) = .ok (v, rest) ∧
      scanFields (pos + ((b :: bytes).length - rest.length)) left rest
        = .ok (values', stop, more) := by
  unfold scanFields at h
  rw [if_neg hb] at h
  cases room with
  | zero => cases h
  | succ left =>
    cases hread : Vlq.read (b :: bytes) with
    | error at? =>
      rw [hread] at h
      cases h
    | ok number =>
      rcases number with ⟨v, rest⟩
      cases hscan : scanFields (pos + ((b :: bytes).length - rest.length)) left rest with
      | error e =>
        simp only [hread, hscan] at h
        cases h
      | ok scanned =>
        rcases scanned with ⟨values', stop', more'⟩
        simp only [hread, hscan] at h
        cases h
        exact ⟨left, v, rest, values', rfl, rfl, hscan⟩

theorem length_le_of_scanFields {pos room stop : Nat} {line more : List UInt8} {values : List Int}
    (h : scanFields pos room line = .ok (values, stop, more)) : more.length ≤ line.length := by
  cases line with
  | nil =>
    unfold scanFields at h
    cases h
    exact Nat.le_refl _
  | cons b bytes =>
    by_cases hb : b = 44
    · unfold scanFields at h
      rw [if_pos hb] at h
      cases h
      exact Nat.le_refl _
    · rcases exists_read_of_scanFields hb h with ⟨left, v, rest, values', hroom, hread, hscan⟩
      exact Nat.le_trans (length_le_of_scanFields hscan)
        (Nat.le_of_lt (Vlq.length_lt_of_read hread))
termination_by room

theorem length_lt_of_scanFields {pos room stop : Nat} {b : UInt8} {bytes more : List UInt8}
    {values : List Int} (hb : ¬ b = 44)
    (h : scanFields pos room (b :: bytes) = .ok (values, stop, more)) :
    more.length < (b :: bytes).length := by
  rcases exists_read_of_scanFields hb h with ⟨left, v, rest, values', -, hread, hscan⟩
  exact Nat.lt_of_le_of_lt (length_le_of_scanFields hscan) (Vlq.length_lt_of_read hread)

end Segment

namespace Mappings

/-- The segments of a line from the cursor on, and the totals after the line. -/
def scanLine (t : Totals) (column pos : Nat) (line : List UInt8) :
    Except Error (List Segment × Totals) :=
  match line with
  | [] => .ok ([], t)
  | b :: rest =>
    -- commas are passed over, however many there are
    if hb : b = 44 then scanLine t column (pos + 1) rest
    else
      match _ : Segment.scanFields pos 5 (b :: rest) with
      | .error e => .error e
      | .ok (fields, stop, more) => do
        let (segment, next) ← Segment.ofFields t column stop fields
        let (segments, last) ← scanLine next segment.column stop more
        pure (segment :: segments, last)
termination_by line.length
decreasing_by
  · exact Nat.lt_add_one _
  · exact Segment.length_lt_of_scanFields hb ‹_›

def scanLines (t : Totals) (pos : Nat) (bytes : List UInt8) : Except Error Mappings := do
  let line := bytes.takeWhile (· ≠ 59)
  let (segments, next) ← scanLine t 0 pos line
  if line.length < bytes.length then
    let lines ← scanLines next (pos + line.length + 1) (bytes.drop (line.length + 1))
    pure (segments :: lines)
  else pure [segments]
termination_by bytes.length
decreasing_by
  rw [List.length_drop]
  omega

/-- The mappings that a text stands for, found in one pass. -/
def scan (text : String) : Except Error Mappings := scanLines Totals.zero 0 (Utf8.ofString text)

end Mappings

end Retrace
