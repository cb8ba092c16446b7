import Retrace.Error
import Retrace.Json.Node
import Retrace.Trace.Table.Basic

/-!
# The packed form of a table

A location leaves out what it shares with the one before it: the column and path, or the path alone.
The locations of all functions form one sequence, those of all blocks, function after function, form
a second one, and missing locations have no part in either.

* `Packer` — the column and path that a location may leave out;
* `Table.pack`, `Table.unpack` — between a table and its packed form;
* `Packer.emit`, `Packer.accept` — one location after another, with what may be left out as a state;
* `Table.packStreams`, `Table.unpackStreams` — a table in this way;
* `Table.toText`, `Table.ofBytes` — between a table and the JSON that a trace carries.
-/

namespace Retrace

/-! ## Packed locations -/

inductive PackedLocation where
  | line (line : Nat)
  | lineColumn (line column : Nat)
  | full (line column path : Nat)
deriving DecidableEq, Repr

/-- The column and path of the location before. -/
structure Packer where
  column : Nat
  path : Nat
deriving DecidableEq, Repr

namespace Packer

def start : Packer := ⟨0, 0⟩

def pack (p : Packer) (l : Location) : PackedLocation :=
  if l.path ≠ p.path then .full l.pos.line l.pos.column l.path
  else if l.pos.column ≠ p.column then .lineColumn l.pos.line l.pos.column
  else .line l.pos.line

def unpack (p : Packer) : PackedLocation → Location
  | .line line => ⟨⟨line, p.column⟩, p.path⟩
  | .lineColumn line column => ⟨⟨line, column⟩, p.path⟩
  | .full line column path => ⟨⟨line, column⟩, path⟩

/-- What the next location may leave out after `l`. -/
def after (l : Location) : Packer := ⟨l.pos.column, l.path⟩

def packAll (p : Packer) : List (Option Location) → List (Option PackedLocation) × Packer
  | [] => ([], p)
  | none :: rest =>
    let (packed, last) := packAll p rest
    (none :: packed, last)
  | some l :: rest =>
    let (packed, last) := packAll (after l) rest
    (some (p.pack l) :: packed, last)

/-- Packs one list after another. -/
def packLists (p : Packer) : List (List (Option Location)) → List (List (Option PackedLocation))
  | [] => []
  | ls :: rest =>
    let (packed, next) := packAll p ls
    packed :: packLists next rest

/-- The location that a packed one stands for, which has to lie in one of `paths` sources. -/
def unpackChecked (p : Packer) (paths : Nat) (packed : PackedLocation) : Except Error Location :=
  let l := p.unpack packed
  if l.path < paths then .ok l else .error (.invalidTable (.pathOutOfRange l.path paths))

def unpackAll (p : Packer) (paths : Nat) :
    List (Option PackedLocation) → Except Error (List (Option Location) × Packer)
  | [] => .ok ([], p)
  | none :: rest => do
    let (ls, last) ← unpackAll p paths rest
    pure (none :: ls, last)
  | some packed :: rest => do
    let l ← p.unpackChecked paths packed
    let (ls, last) ← unpackAll (after l) paths rest
    pure (some l :: ls, last)

def unpackLists (p : Packer) (paths : Nat) :
    List (List (Option PackedLocation)) → Except Error (List (List (Option Location)))
  | [] => .ok []
  | packed :: rest => do
    let (ls, next) ← unpackAll p paths packed
    pure (ls :: (← unpackLists next paths rest))

end Packer

/-! ## Packed tables -/

/-- An entry lists the location of a function and then those of its blocks. -/
structure PackedTable where
  paths : List String
  entries : List (List (Option PackedLocation))
deriving DecidableEq, Repr

namespace Table

def pack (t : Table) : PackedTable where
  paths := t.paths
  entries :=
    List.zipWith (· :: ·) (Packer.start.packAll (t.functions.map (·.location))).1
      (Packer.start.packLists (t.functions.map (·.blocks)))

/-- The table of a packed one.  The locations of functions are checked before those of blocks.  An
empty entry is a function without a location. -/
def unpack (p : PackedTable) : Except Error Table := do
  let (heads, _) ← Packer.start.unpackAll p.paths.length (p.entries.map fun e => e.head?.join)
  let blocks ← Packer.start.unpackLists p.paths.length (p.entries.map List.tail)
  pure ⟨p.paths, List.zipWith FunctionEntry.mk heads blocks⟩

end Table

/-! ## Streams

The locations one after another, with the column and path of the last one as a state.  Packing
compares a location with them and changes what differs; reading changes what is given, whether it
differs or not. -/

namespace Packer

def emit (l : Location) : StateM Packer PackedLocation := do
  let p ← get
  if l.path ≠ p.path then
    set (Packer.mk l.pos.column l.path)
    pure (.full l.pos.line l.pos.column l.path)
  else if l.pos.column ≠ p.column then
    set { p with column := l.pos.column }
    pure (.lineColumn l.pos.line l.pos.column)
  else
    pure (.line l.pos.line)

def emitAll (ls : List (Option Location)) : StateM Packer (List (Option PackedLocation)) :=
  ls.mapM (Option.mapM emit)

def accept (packed : PackedLocation) : StateT Packer (Except Error) Location := do
  let line ← match packed with
    | .line line => pure line
    | .lineColumn line column => do
      modify fun p => { p with column }
      pure line
    | .full line column path => do
      set (Packer.mk column path)
      pure line
  let p ← get
  pure ⟨⟨line, p.column⟩, p.path⟩

def acceptChecked (paths : Nat) (packed : PackedLocation) :
    StateT Packer (Except Error) Location := do
  let l ← accept packed
  if l.path < paths then pure l else throw (.invalidTable (.pathOutOfRange l.path paths))

def acceptAll (paths : Nat) (packed : List (Option PackedLocation)) :
    StateT Packer (Except Error) (List (Option Location)) :=
  packed.mapM (Option.mapM (acceptChecked paths))

end Packer

namespace Table

/-- Packs the functions first, and then the blocks from the start again. -/
def packStreams (t : Table) : PackedTable where
  paths := t.paths
  entries :=
    List.zipWith (· :: ·) ((Packer.emitAll (t.functions.map (·.location))).run Packer.start).1
      (((t.functions.map (·.blocks)).mapM Packer.emitAll).run Packer.start).1

def unpackStreams (p : PackedTable) : Except Error Table := do
  let heads ← (Packer.acceptAll p.paths.length (p.entries.map fun e => e.head?.join)).run'
    Packer.start
  let blocks ← ((p.entries.map List.tail).mapM (Packer.acceptAll p.paths.length)).run' Packer.start
  pure ⟨p.paths, List.zipWith FunctionEntry.mk heads blocks⟩

end Table

/-! ## JSON -/

def PackedLocation.toJson : PackedLocation → Json
  | line l => .num l
  | lineColumn l c => .arr [.num l, .num c]
  | full l c p => .arr [.num l, .num c, .num p]

/-- A number, a pair or a triple of 32-bit numbers. -/
def PackedLocation.ofNode? (n : Node) : Option PackedLocation :=
  match n with
  | .arr _ => do
    match ← n.list? (Node.nat? 0x100000000) with
    | [l, c] => some (lineColumn l c)
    | [l, c, p] => some (full l c p)
    | _ => none
  | n => (n.nat? 0x100000000).map line

def PackedTable.toJson (p : PackedTable) : Json :=
  .obj
    [("sourcePaths", .arr (p.paths.map .str)),
      ("fnInfos", .arr (p.entries.map fun e => .arr (e.map (Json.ofOption PackedLocation.toJson))))]

def PackedTable.ofNode? (n : Node) : Option PackedTable := do
  match ← n.record? ["sourcePaths", "fnInfos"] with
  | [paths, entries] =>
    let paths ← Node.required? (Node.list? Node.string?) paths
    let entries ←
      Node.required? (Node.list? (Node.list? (Node.option? PackedLocation.ofNode?))) entries
    pure ⟨paths, entries⟩
  | _ => none

namespace Table

def toText (t : Table) : String := t.pack.toJson.compact

/-- The bytes that a trace carries for a table. -/
def toBytes (t : Table) : List UInt8 := Utf8.ofString t.toText

def ofBytes (bytes : List UInt8) : Except Error Table :=
  match (Node.ofBytes? bytes).bind PackedTable.ofNode? with
  | some packed => unpack packed
  | none => .error (.invalidTable .syntaxError)

end Table

end Retrace
