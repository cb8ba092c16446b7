import Retrace.Text.Patch

/-!
# Errors

Every failure of the library is an `Error`, and every kind of failure has

* `Error.message` — what happened, in one line;
* `Error.code` — a name for scripts to test;
* `Error.help` — what to do about it.

The faults say what is wrong with one input.  Each has a constructor `stated` for a reason that
comes in words, and those that pass on a complaint about the syntax of a document keep no text of
it.
-/

namespace Retrace

/-! ## Faults -/

/-- What needs a module to be active. -/
inductive ModuleUse where
  | table
  | call
deriving DecidableEq, Repr

/-- What is wrong with the bytes of a trace. -/
inductive TraceFault where
  | unknownOpcode (byte : UInt8)
  | truncated (needed remaining : Nat)
  | noModule (use : ModuleUse) (index : Nat)
  | stated (reason : String)
deriving DecidableEq, Repr

/-- What is wrong with a table of source locations. -/
inductive TableFault where
  | syntaxError
  | pathOutOfRange (path paths : Nat)
  | undeclaredFunction (id : Nat)
  | stated (reason : String)
deriving DecidableEq, Repr

/-- A number that the segments of a source map carry. -/
inductive SegmentField where
  | generatedColumn
  | sourceIndex
  | sourceLine
  | sourceColumn
  | nameIndex
deriving DecidableEq, Repr

/-- What is wrong with a source map.  Places count the bytes of its mappings. -/
inductive SourceMapFault where
  | syntaxError
  | inlineData
  | tooManyFields (pos : Nat)
  | fieldCount (count stop : Nat)
  | overflow (field : SegmentField) (stop : Nat)
  | outOfRange (field : SegmentField) (value : Int) (stop : Nat)
  | stated (reason : String)
deriving DecidableEq, Repr

/-- What is wrong with a set of edits. -/
inductive EditFault where
  | order (fault : Patch.Fault)
  | stated (reason : String)
deriving DecidableEq, Repr

/-! ## Errors -/

inductive Error where
  | valueTooLarge (value : Nat)
  | malformedTrace (offset : Nat) (fault : TraceFault)
  | unbalancedReturn (index : Nat)
  | unknownModule (id : Nat)
  | invalidTable (fault : TableFault)
  | invalidSourceMap (fault : SourceMapFault)
  | unsupportedVersion (version : Nat)
  | invalidVlq (pos : Nat)
  | invalidEdit (fault : EditFault)
  | fileError (reason : String)
deriving DecidableEq, Repr

/-! ## Wording -/

/-- Eight binary digits. -/
def bits (byte : UInt8) : String :=
  String.ofList ((List.range 8).map fun i =>
    if byte.toNat >>> (7 - i) % 2 = 1 then '1' else '0')

def ModuleUse.text : ModuleUse → String
  | table => "module info"
  | call => "function call"

def TraceFault.text : TraceFault → String
  | unknownOpcode byte => s!"unknown opcode 0b{bits byte}"
  | truncated needed remaining =>
    s!"instruction needs {needed} more bytes but only {remaining} remain"
  | noModule use index => s!"{use.text} at instruction {index} before any module was set"
  | stated reason => reason

def TableFault.text : TableFault → String
  | syntaxError => "not a module table"
  | pathOutOfRange path paths => s!"source path index {path} out of range ({paths} paths)"
  | undeclaredFunction id => s!"function {id} was never declared"
  | stated reason => reason

def SegmentField.text : SegmentField → String
  | generatedColumn => "generated column"
  | sourceIndex => "source index"
  | sourceLine => "source line"
  | sourceColumn => "source column"
  | nameIndex => "name index"

def SourceMapFault.text : SourceMapFault → String
  | syntaxError => "not a source map"
  | inlineData => "bad inline data"
  | tooManyFields pos => s!"segment at {pos} has more than 5 fields"
  | fieldCount count stop => s!"segment ending at {stop} has {count} fields, expected 1, 4 or 5"
  | overflow field stop => s!"{field.text} overflows in segment ending at {stop}"
  | outOfRange field value stop =>
    s!"{field.text} {value} out of range in segment ending at {stop}"
  | stated reason => reason

def EditFault.text : EditFault → String
  | order (.reversed range) => s!"range {range} ends before it starts"
  | order (.clash later earlier) => s!"edit at {later} overlaps or precedes edit at {earlier}"
  | stated reason => reason

namespace Error

def message : Error → String
  | valueTooLarge value => s!"Value {value} does not fit into a 24-bit instruction operand"
  | malformedTrace offset fault => s!"Malformed trace at byte {offset}: {fault.text}"
  | unbalancedReturn index => s!"Function return at instruction {index} has no matching call"
  | unknownModule id => s!"No module info recorded for module {id}"
  | invalidTable fault => s!"Invalid module info: {fault.text}"
  | invalidSourceMap fault => s!"Invalid source map: {fault.text}"
  | unsupportedVersion version => s!"Unsupported source map version {version}"
  | invalidVlq pos => s!"Invalid VLQ digit in mappings at position {pos}"
  | invalidEdit fault => s!"Invalid text edit: {fault.text}"
  | fileError reason => s!"File operation failed: {reason}"

def code : Error → String
  | valueTooLarge _ => "insight::value_too_large"
  | malformedTrace _ _ => "insight::malformed_trace"
  | unbalancedReturn _ => "insight::unbalanced_return"
  | unknownModule _ => "insight::unknown_module"
  | invalidTable _ => "insight::invalid_module_info"
  | invalidSourceMap _ => "insight::invalid_source_map"
  | unsupportedVersion _ => "insight::unsupported_version"
  | invalidVlq _ => "insight::invalid_vlq"
  | invalidEdit _ => "insight::invalid_edit"
  | fileError _ => "insight::file_error"

def help : Error → String
  | valueTooLarge _ =>
    "Function, block and module ids are limited to 16777215. " ++
      "Split very large modules before instrumenting them."
  | malformedTrace _ _ =>
    "The trace file is truncated or was not written by an execution recorder."
  | unbalancedReturn _ =>
    "The trace is corrupted: every return must be preceded by a call that is still open."
  | unknownModule _ =>
    "Module info is written the first time a module is entered. " ++
      "Use `code-insight modules` to list the recorded modules."
  | invalidTable _ =>
    "The embedded module table must be JSON with `sourcePaths` and `fnInfos` fields."
  | invalidSourceMap _ => "Make sure the file is a version 3 source map in JSON form."
  | unsupportedVersion _ => "Only version 3 source maps are supported."
  | invalidVlq _ => "The `mappings` field may only contain base64 digits, `,` and `;`."
  | invalidEdit _ => "Edits must be sorted by start position and must not overlap."
  | fileError _ => "Check if you have necessary permissions and that the path exists."

end Error

end Retrace
