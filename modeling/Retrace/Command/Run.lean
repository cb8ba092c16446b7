import Retrace.Command.Answer
import Retrace.Command.Invocation
import Retrace.Text.PatchJson

/-!
# Carrying out commands

* `Host` — what the program needs of its surroundings;
* `Host.runCommand` — carries out a command;
* `Host.run` — carries out a command line;
* `Ending` — how that ends.

Files are read before anything is printed or written, and a command that fails prints nothing, unless
it breaks off at a number that is too wide.
-/

namespace Retrace

/-- Files and a place to print.  Reading answers nothing if it is not possible, and writing answers
whether it was. -/
structure Host (m : Type → Type) where
  read : String → m (Option (List UInt8))
  write : String → List UInt8 → m Bool
  print : String → m Unit

/-- Why a command could not be carried out. -/
inductive Failure where
  | error (e : Error)
  | unreadable (path : String)
  | unwritable (path : String)
  | notPatch (path : String)
  /-- A number is too wide for its machine word. -/
  | overflow
deriving DecidableEq, Repr

namespace Failure

/-- The code of the error, if it is one. -/
def code? : Failure → Option String
  | error e => some e.code
  | _ => none

def message : Failure → String
  | error e => e.message
  | unreadable path => s!"Failed to read {Quoted.quote path}"
  | unwritable path => s!"Failed to write {Quoted.quote path}"
  | notPatch path => s!"Invalid edit file: {Quoted.quote path}"
  | overflow => "attempt to add with overflow"

/-- What the program ends with.  Breaking off is no ordinary failure. -/
def exitCode : Failure → Nat
  | overflow => 101
  | _ => 1

end Failure

namespace Host

variable {m : Type → Type} [Monad m] (host : Host m)

/-- The bytes of a file that the command is about. -/
def readBytes (path : String) : ExceptT Failure m (List UInt8) := do
  match ← host.read path with
  | some bytes => pure bytes
  | none => throw (.error (.fileError s!"Failed to read {Quoted.quote path}"))

/-- The text of a file, if it is one. -/
def readText? (path : String) : ExceptT Failure m (Option String) := do
  pure (((← host.read path).bind Utf8.decode?).map String.ofList)

/-- The text of a file that the command needs besides. -/
def readText (path : String) : ExceptT Failure m String := do
  match ← host.readText? path with
  | some text => pure text
  | none => throw (.unreadable path)

def writeText (path text : String) : ExceptT Failure m Unit := do
  if ← host.write path (Utf8.ofString text) then pure ()
  else throw (.unwritable path)

def printLine (line : String) : ExceptT Failure m Unit := host.print (line ++ "\n")

/-- Prints an answer, if there is one, up to the first line that is missing. -/
def answer (lines : Except Error (List (Option String))) : ExceptT Failure m Unit := do
  match lines with
  | .ok lines => lines.forM fun
    | some line => host.printLine line
    | none => throw .overflow
  | .error e => throw (.error e)

/-- The value, or a failure for its error. -/
def orFail {α : Type} (x : Except Error α) : ExceptT Failure m α :=
  match x with
  | .ok a => pure a
  | .error e => throw (.error e)

/-! ## Commands -/

/-- Patches a map, and the generated file too if both its names are given. -/
def applyEdit (colored : Bool) (sourceMap edit : String) (output : Option String)
    (generated : Option (String × String)) : ExceptT Failure m Unit := do
  let map ← orFail (SourceMap.ofText (← host.readText sourceMap))
  let patch ←
    match Patch.ofText? (← host.readText edit) with
    | some p => pure p
    | none => throw (.notPatch edit)
  let updated ← orFail (map.applyPatch patch)
  match generated with
  | some (source, target) => host.writeText target (patch.apply (← host.readText source))
  | none => pure ()
  match output with
  | some path =>
    host.writeText path updated.toText
    host.printLine (Answer.written colored patch path)
  | none => host.printLine updated.toText

def lookup (json : Bool) (sourceMap : String) (line column : Nat) : ExceptT Failure m Unit := do
  match ← host.readText? sourceMap with
  | some text =>
    let map ← orFail (SourceMap.ofText text)
    host.answer (Answer.lookup json line column ⟨map, sourceMap⟩)
  | none => throw (.error (.fileError s!"Failed to read source map {Quoted.quote sourceMap}"))

def runCommand (colored : Bool) (cacheSize : Nat) : Command → ExceptT Failure m Unit
  | .decode trace json => do
    host.answer (Answer.decode colored json trace (.ofBytes (← host.readBytes trace)))
  | .stack trace index context json => do
    host.answer
      (Answer.stack colored json cacheSize index context (.ofBytes (← host.readBytes trace)))
  | .modules trace json => do
    host.answer (Answer.modules colored json (.ofBytes (← host.readBytes trace)))
  | .applyEdit sourceMap edit output generated =>
    host.applyEdit colored sourceMap edit output generated
  | .lookup sourceMap line column json => host.lookup json sourceMap line column

/-- The settings, the usual ones if there is no file with better ones. -/
def settings : m Settings := do
  pure ((Settings.ofBytes? (← host.read Settings.fileName)).toOption.getD .default)

end Host

/-! ## Command lines -/

inductive Ending where
  | done
  | refused (r : Command.Refusal)
  | failed (f : Failure)
deriving DecidableEq, Repr

namespace Ending

/-- Asking for help or for the version is no mistake. -/
def exitCode : Ending → Nat
  | done => 0
  | refused .help => 0
  | refused .version => 0
  | refused _ => 2
  | failed f => f.exitCode

/-- What went wrong, in a line. -/
def complaint? : Ending → Option String
  | done => none
  | refused .help => none
  | refused .version => none
  | refused r => some s!"error: {r.message}"
  | failed f => some s!"error: {f.message}"

end Ending

def versionLine : String := "code-insight 0.1.0"

def usage : List String :=
  ["Replay execution traces and keep source maps valid across instrumentation edits", "",
    "Usage: code-insight [-v | -q] <COMMAND>", "",
    "  decode <TRACE> [--json]",
    "  stack <TRACE> -i <INDEX> [-c <CONTEXT>] [--json]",
    "  modules <TRACE> [--json]",
    "  apply-edit -m <SOURCE_MAP> -e <EDIT> [-o <OUTPUT>]",
    "    [--generated <GENERATED> --generated-output <GENERATED_OUTPUT>]",
    "  lookup <SOURCE_MAP> -l <LINE> -c <COLUMN> [--json]"]

namespace Host

variable {m : Type → Type} [Monad m] (host : Host m)

/-- Carries out the words of a command line. -/
def run (colored : Bool) (words : List String) : m Ending := do
  match Invocation.ofWords words with
  | .error .help => do
    usage.forM fun line => host.print (line ++ "\n")
    pure (.refused .help)
  | .error .version => do
    host.print (versionLine ++ "\n")
    pure (.refused .version)
  | .error r => pure (.refused r)
  | .ok i => do
    let settings ← host.settings
    let command := i.command.preferJson settings.prefersJson
    match ← (host.runCommand colored settings.cacheSize command).run with
    | .ok () => pure .done
    | .error f => pure (.failed f)

end Host

end Retrace
