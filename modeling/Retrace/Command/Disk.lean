import Retrace.Command.Run
import Retrace.Path

/-!
# Files in memory

* `Disk` — the files of a system, as far as they are known;
* `Disk.workplace` — the directory that relative paths start from;
* `Device` — files that are no place to keep bytes;
* `Disk.read`, `Disk.write` — one file by its path;
* `Session` — a disk and what has been printed, as a place where commands run.

A directory is there if a file or a device lies below it, or the workplace does.  Any directory may
be written to.  Names and paths have a greatest length.
-/

namespace Retrace

/-! ## Devices -/

inductive Device where
  /-- Holds nothing and takes everything. -/
  | null
  /-- Has no room for a byte. -/
  | full
  /-- Prints what it takes. -/
  | output
deriving DecidableEq, Repr

namespace Device

/-- Where devices lie. -/
def directory : List (List Char) := ["dev".toList]

/-- The standard input is empty, and what goes to the error output is not kept. -/
def names : List (List Char × Device) :=
  [("null".toList, null), ("full".toList, full), ("stdin".toList, null), ("stdout".toList, output),
    ("stderr".toList, null)]

def ofNames? : List (List Char) → Option Device
  | name :: above => if above = directory then names.lookup name else none
  | [] => none

/-- The bytes of a device that has an end. -/
def read? : Device → Option (List UInt8)
  | null => some []
  | full => none
  | output => none

end Device

/-! ## Disks -/

/-- Files by the names that lead to them from the root, the innermost first. -/
structure Disk where
  files : List (List (List Char) × List UInt8)
deriving DecidableEq, Repr, Inhabited

namespace Disk

/-- The directory that relative paths start from.  Its own name is empty, so that no path leads to
it by name. -/
def workplace : List (List Char) := [[], "tmp".toList]

/-- Whether names lead to a directory. -/
def IsDirectory (d : Disk) (names : List (List Char)) : Prop :=
  names <:+ workplace ∨ names <:+ Device.directory ∨ ∃ f ∈ d.files, names <:+ f.1.tail

instance (d : Disk) (names : List (List Char)) : Decidable (d.IsDirectory names) :=
  inferInstanceAs (Decidable (_ ∨ _ ∨ _))

/-- The most bytes of a name. -/
def maxName : Nat := 255

/-- The most bytes of a path. -/
def maxPath : Nat := 4095

/-- Where the components of a path lead from a directory.  All but the last have to lead to
directories themselves. -/
def follow (d : Disk) (here : List (List Char)) : List (List Char) → Option (List (List Char))
  | [] => some here
  | part :: rest =>
    -- a slash or a dot at the end asks for a directory, because something is left then
    if Path.IsTrivial part then follow d here rest
    -- above the root there is the root again
    else if part = ['.', '.'] then follow d here.tail rest
    else if maxName < (Utf8.encode part).length then none
    else if rest = [] ∨ d.IsDirectory (part :: here) then follow d (part :: here) rest
    else none

def locate (d : Disk) (path : String) : Option (List (List Char)) :=
  if maxPath < path.utf8ByteSize then none
  else d.follow (if Path.IsAbsolute path.toList then [] else workplace) (Path.split path.toList)

/-- The device that a path leads to. -/
def device? (d : Disk) (path : String) : Option Device := (d.locate path).bind Device.ofNames?

def read (d : Disk) (path : String) : Option (List UInt8) :=
  match d.device? path with
  | some v => v.read?
  | none => do d.files.lookup (← d.locate path)

/-- Writes a file, which may exist or not, in a directory that exists.  A device keeps nothing. -/
def write (d : Disk) (path : String) (bytes : List UInt8) : Option Disk :=
  match d.device? path with
  | some v => if v = .full ∧ bytes ≠ [] then none else some d
  | none => do
    let names ← d.locate path
    if d.IsDirectory names ∨ ¬ d.IsDirectory names.tail then none
    else pure ⟨(names, bytes) :: d.files.filter fun f => f.1 ≠ names⟩

/-- Adds a file below the workplace with all directories on the way to it. -/
def add (d : Disk) (path : String) (bytes : List UInt8) : Disk :=
  let names := (Path.components path.toList).reverse ++ workplace
  ⟨(names, bytes) :: d.files.filter fun f => f.1 ≠ names⟩

def ofFiles (files : List (String × List UInt8)) : Disk :=
  files.foldl (fun d f => d.add f.1 f.2) ⟨[]⟩

end Disk

/-! ## Running on a disk -/

structure Session where
  disk : Disk
  printed : String
deriving DecidableEq, Repr, Inhabited

namespace Session

def print (s : Session) (text : String) : Session := { s with printed := s.printed ++ text }

/-- Writes to the disk, or prints. -/
def write (s : Session) (path : String) (bytes : List UInt8) : Option Session := do
  let disk ← s.disk.write path bytes
  if s.disk.device? path = some .output then
    pure (s.print (String.ofList (Utf8.decodeLossy bytes)))
  else pure { s with disk }

/-- Reads and writes the disk and keeps what is printed. -/
def host : Host (StateM Session) where
  read path := do pure ((← get).disk.read path)
  write path bytes := do
    match (← get).write path bytes with
    | some s => do
      set s
      pure true
    | none => pure false
  print text := modify fun s => s.print text

/-- How a command line ends, and what it leaves behind. -/
def run (d : Disk) (colored : Bool) (words : List String) : Ending × Session :=
  (host.run colored words).run ⟨d, ""⟩

end Session

end Retrace
