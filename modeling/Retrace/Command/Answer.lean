import Retrace.Replay.Timeline
import Retrace.Report
import Retrace.Settings
import Retrace.SourceMap.Located
import Retrace.Text.Quoted
import Retrace.Trace.EventJson

/-!
# Answers of commands

What a command prints, as a list of lines, once the files it needs have been read:

* `Answer.decode` — the events of a trace;
* `Answer.stack` — the open calls after an event;
* `Answer.modules` — the tables in a trace;
* `Answer.lookup` — where a position of a generated file comes from;
* `Answer.written` — that a patched map has been written.

Each comes as text for people or as JSON.  A line may hold line breaks.  It is missing where a number
on it would be too wide, and nothing behind it is printed then.
-/

namespace Retrace.Answer

/-! ## JSON -/

/-- A result in the form that all of them share. -/
def envelope (result : Json) : String :=
  (Json.obj [("status", .str "ok"), ("result", result), ("errors", .null)]).pretty

def tableSummary (id : Nat) (t : Table) : Json :=
  .obj [("module_id", .num id), ("source_paths", SourceMap.strings t.paths),
    ("functions", .num t.functions.length), ("blocks", .num t.blockCount)]

/-- Lines that are all there. -/
def whole (lines : List String) : List (Option String) := lines.map some

/-! ## Traces -/

def decode (colored json : Bool) (path : String) (r : Recording) :
    Except Error (List (Option String)) := do
  let events ← r.events
  if json then pure (whole [envelope (.arr (events.map Event.toJson))])
  else
    let title :=
      s!"Trace {Quoted.quote path}: {events.length} instructions ({r.bytes.length} bytes)"
    pure (whole (Tone.info.paint colored title :: events.mapIdx fun i e => Report.event i e false))

/-- What the reader should know about the position shown. -/
def positionNotes (colored : Bool) (asked shown length : Nat) : List String :=
  if length = 0 then [Tone.warning.paint colored "Trace contains no instructions."]
  else if shown ≠ asked then
    [Tone.warning.paint colored
      s!"Index {asked} is past the end of the trace, showing instruction {shown}."]
  else []

def stack (colored json : Bool) (cacheSize index context : Nat) (r : Recording) :
    Except Error (List (Option String)) := do
  -- an index past the end shows the last event
  let (shown, t) := (← Timeline.ofRecording r cacheSize).goto index
  let s ← t.resolvedStack.1
  if json then
    pure (whole [envelope (.obj [("index", .num shown), ("instruction_count", .num t.length),
      ("stack", s.toJson)])])
  else
    let around ←
      if 0 < context ∧ 0 < t.length then
        pure [Report.context? (← r.events) shown context, some ""]
      else pure []
    pure (whole (positionNotes colored index shown t.length) ++ around
      ++ whole [Report.stack colored s])

def modules (colored json : Bool) (r : Recording) : Except Error (List (Option String)) := do
  let tables ← r.tables
  if json then pure (whole [envelope (.arr (tables.map fun (id, t) => tableSummary id t))])
  else if tables = [] then pure (whole [Tone.warning.paint colored "No module info recorded."])
  else pure (whole (tables.map fun (id, t) => Report.table id t))

/-! ## Source maps -/

def lookup (json : Bool) (line column : Nat) (m : LocatedMap) :
    Except Error (List (Option String)) := do
  let origin? ← m.map.lookup line column
  if json then
    pure (whole [envelope (.obj [("line", .num line), ("column", .num column),
      ("source", .ofOption .str (origin?.bind fun o => m.sourcePath? o.source)),
      ("source_line", .ofOption .num (origin?.map (·.line))),
      ("source_column", .ofOption .num (origin?.map (·.column)))])])
  else pure [Report.lookup? line column origin? m.map.sources]

def written (colored : Bool) (p : Patch) (path : String) : String :=
  Tone.success.paint colored
    s!"Applied {p.edits.length} edits, source map written to {Quoted.quote path}"

end Retrace.Answer
