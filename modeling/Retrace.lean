import Retrace.Text.Patch
import Retrace.Text.LineTable
import Retrace.Word
import Retrace.Text.Guarded
import Retrace.Error
import Retrace.Json.Value
import Retrace.SourceMap.Vlq
import Retrace.Text.Utf8
import Retrace.SourceMap.Mappings
import Retrace.SourceMap.Propagate
import Retrace.SourceMap.Guarded
import Retrace.Json.Node
import Retrace.Trace.Event
import Retrace.Trace.Wire
import Retrace.Trace.Table.Basic
import Retrace.Trace.Table.Packed
import Retrace.Trace.Declarations
import Retrace.Trace.Recorder
import Retrace.Replay.Machine
import Retrace.Replay.Recording
import Retrace.Replay.Timeline
import Retrace.Trace.EventJson
import Retrace.Path
import Retrace.SourceMap.Document
import Retrace.SourceMap.Located
import Retrace.SourceMap.Reference
import Retrace.Report
import Retrace.Settings
import Retrace.Command.Grammar
import Retrace.Command.Invocation
import Retrace.Command.Answer
import Retrace.Command.Disk
import Retrace.Main
import Retrace.Proofs.Text.Measure
import Retrace.Proofs.Text.Offsets
import Retrace.Proofs.Text.Moved
import Retrace.Proofs.Text.Former
import Retrace.Proofs.Text.Splice
import Retrace.Proofs.Text.Kept
import Retrace.Proofs.Text.Clamp
import Retrace.Proofs.SourceMap.Cover
import Retrace.Proofs.SourceMap.Propagation
import Retrace.Proofs.SourceMap.Written
import Retrace.Proofs.SourceMap.Inserted
import Retrace.Proofs.SourceMap.Placed
import Retrace.Proofs.SourceMap.Described
import Retrace.Proofs.SourceMap.Clamped
import Retrace.Proofs.SourceMap.Singly
import Retrace.Proofs.Result
import Retrace.Proofs.SourceMap.Codec
import Retrace.Proofs.SourceMap.Unedited
import Retrace.Proofs.Trace.Recorder
import Retrace.Proofs.Trace.History
import Retrace.Proofs.Replay.Machine
import Retrace.Proofs.Replay.LiveStack
import Retrace.Proofs.Json.Numeral
import Retrace.Proofs.Json.Scan
import Retrace.Proofs.Text.Utf8
import Retrace.Proofs.Json.Node
import Retrace.Proofs.Trace.Packed
import Retrace.Proofs.Trace.Declarations
import Retrace.Proofs.Replay.Resolved
import Retrace.Proofs.Trace.Matching
import Retrace.Proofs.Replay.Unmatched
import Retrace.Proofs.Replay.Timeline
import Retrace.Proofs.Trace.Tables
import Retrace.Proofs.Replay.FirstTables
import Retrace.Proofs.Trace.Stranded
import Retrace.Proofs.Trace.Refused
import Retrace.Proofs.Trace.Prefix
import Retrace.Proofs.Trace.Walker
import Retrace.Proofs.Replay.Growing
import Retrace.Proofs.Replay.TableList
import Retrace.Proofs.SourceMap.Scan
import Retrace.Proofs.SourceMap.Grammar
import Retrace.Proofs.Replay.DepthChange
import Retrace.Proofs.Replay.Lazy
import Retrace.Proofs.Base64
import Retrace.Proofs.SourceMap.Document
import Retrace.Proofs.Text.Blank
import Retrace.Proofs.SourceMap.Reference
import Retrace.Proofs.Text.Place
import Retrace.Proofs.SourceMap.Mapped
import Retrace.Proofs.SourceMap.Conserved
import Retrace.Proofs.SourceMap.Digits
import Retrace.Proofs.Trace.Shortest
import Retrace.Proofs.Trace.Register
import Retrace.Proofs.Trace.Numbering
import Retrace.Proofs.Trace.Canonical
import Retrace.Proofs.SourceMap.Normal
import Retrace.Proofs.Text.Undo
import Retrace.Proofs.Text.Sorting
import Retrace.Proofs.Text.Conversions
import Retrace.Proofs.Text.LineTable
import Retrace.Proofs.Text.Guarded
import Retrace.Proofs.SourceMap.Update
import Retrace.Proofs.Report
import Retrace.Proofs.SourceMap.Guarded
import Retrace.Proofs.SourceMap.LastLine
