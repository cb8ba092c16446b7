import Retrace.Replay.Recording
import Retrace.SourceMap.Segment
import Retrace.Word

/-!
# Reports for people

* `Tone`, `Tone.paint` — what a message means, and the colour that says so on a terminal;
* `Report.event`, `Report.context?` — events, and those around one of them;
* `Report.stack` — the open calls, the innermost first;
* `Report.table`, `Report.lookup?` — a line on a table, and on where a position comes from.

Lines and columns count from one here, events from zero.  There is no report with a number that is
too wide for its machine word.
-/

namespace Retrace

/-! ## Colours -/

inductive Tone where
  | info
  | success
  | warning
  | error
  | highlight
deriving DecidableEq, Repr

namespace Tone

/-- Switches a terminal to the colour or weight of a tone. -/
def start : Tone → String
  | info => "\x1b[38;5;12m"
  | success => "\x1b[38;5;10m"
  | warning => "\x1b[38;5;11m"
  | error => "\x1b[38;5;9m"
  | highlight => "\x1b[1m"

/-- Switches the terminal back. -/
def close : Tone → String
  | highlight => "\x1b[0m"
  | _ => "\x1b[39m"

/-- A text in its tone, or as it is where no colours are wanted. -/
def paint (colored : Bool) (t : Tone) (text : String) : String :=
  if colored then t.start ++ text ++ t.close else text

end Tone

namespace Report

/-! ## Layout -/

def padLeft (width : Nat) (text : String) : String :=
  String.ofList (List.replicate (width - text.length) ' ') ++ text

def padRight (width : Nat) (text : String) : String :=
  text ++ String.ofList (List.replicate (width - text.length) ' ')

def lines (l : List String) : String := "\n".intercalate l

/-! ## Events -/

/-- An event without the payload of a table. -/
def eventText : Event → String
  | .table payload => s!"SetModuleInfo ({payload.length} bytes)"
  | e => toString e

/-- An event with its number, marked if it is the current one. -/
def event (index : Nat) (e : Event) (current : Bool) : String :=
  let mark := if current then "►" else " "
  s!"{mark} {padLeft 6 (toString index)}: {eventText e}"

/-- The numbers of the events to show: from the first to before the second.  The second is cut to the
number of events only when it has been reckoned. -/
def window? (count current size : Nat) : Option (Nat × Nat) := do
  let last ← Width.word64.plus? current size
  let stop ← Width.word64.plus? last 1
  pure (current - size, min stop count)

/-- Lines for events whose numbers start at `first`. -/
def eventLines (current first : Nat) : List Event → List String
  | [] => []
  | e :: rest => event first e (first = current) :: eventLines current (first + 1) rest

/-- The events around the current one, `size` of them on either side. -/
def context? (events : List Event) (current size : Nat) : Option String :=
  if events = [] then some "No instructions available"
  else do
    let (first, stop) ← window? events.length current size
    let shown := (events.take stop).drop (min first stop)
    pure (lines ("Instruction Context" :: eventLines current first shown))

/-! ## Stacks, tables and lookups -/

/-- Lines for frames, numbered from the innermost. -/
def frameLines (colored : Bool) (number : Nat) : List ResolvedFrame → List String
  | [] => []
  | f :: rest =>
    let text := s!"  #{padRight 3 (toString number)} {f}"
    (if number = 0 then Tone.highlight.paint colored text else text)
      :: frameLines colored (number + 1) rest

def stack (colored : Bool) (s : ResolvedStack) : String :=
  if s.frames = [] then "Call stack is empty"
  else
    lines (s!"Call Stack ({s.frames.length} frames)" :: frameLines colored 0 s.frames.reverse)

def table (module : Nat) (t : Table) : String :=
  let sources := if t.paths = [] then "<none>" else ", ".intercalate t.paths
  s!"Module {module}: {t.functions.length} functions, {t.blockCount} blocks, sources: {sources}"

/-- A line and a column, counted from one. -/
def place? (line column : Nat) : Option String := do
  let line ← Width.word32.plus? line 1
  let column ← Width.word32.plus? column 1
  pure s!"{line}:{column}"

/-- Where a generated position comes from. -/
def lookup? (line column : Nat) (origin? : Option Origin) (sources : List String) :
    Option String := do
  let generated ← place? line column
  match origin? with
  | none => pure s!"{generated} -> unmapped"
  | some o =>
    let source := sources.getD o.source "<unknown source>"
    pure s!"{generated} -> {source}:{← place? o.line o.column}"

end Report

end Retrace
