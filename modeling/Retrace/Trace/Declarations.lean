import Retrace.Trace.Event
import Retrace.Trace.Table.Basic

/-!
# Declaring functions and blocks

* `Declarations` — the functions and blocks of one generated file, declared so far;
* `Declarations.function`, `Declarations.block` — declaring one more and numbering it;
* `Declarations.table` — the table of everything declared;
* `Register` — the same with an index of the paths, and with numbers of 32 bits.

A resolver says where a position of the generated file comes from.  A position that comes from
nowhere stands for itself, in the generated file.
-/

namespace Retrace

/-- Maps a position of a generated file to the source that it comes from. -/
abbrev Resolver := Pos → Except Error (Option SourcePos)

structure Declarations where
  generated : String
  paths : List String
  functions : List FunctionEntry
deriving DecidableEq, Repr

namespace Declarations

def start (generated : String) : Declarations := ⟨generated, [], []⟩

def table (d : Declarations) : Table := ⟨d.paths, d.functions⟩

/-- The index of a path, which is listed if it is new. -/
def addPath (d : Declarations) (path : String) : Nat × Declarations :=
  match d.paths.idxOf? path with
  | some i => (i, d)
  | none => (d.paths.length, { d with paths := d.paths ++ [path] })

/-- The location that is noted for a position of the generated file. -/
def locate (resolve : Resolver) (d : Declarations) (p : Pos) :
    Except Error (Location × Declarations) := do
  let source := (← resolve p).getD ⟨d.generated, p⟩
  let (path, d) := d.addPath source.path
  pure (⟨source.pos, path⟩, d)

/-- Declares a function, which gets the next number. -/
def function (resolve : Resolver) (d : Declarations) (p : Pos) :
    Except Error Nat × Declarations :=
  let id := d.functions.length
  match Event.checkOperand id with
  | .error e => (.error e, d)
  | .ok () =>
    match d.locate resolve p with
    | .error e => (.error e, d)
    | .ok (location, d) =>
      (.ok id, { d with functions := d.functions ++ [⟨some location, []⟩] })

/-- Declares a block of a function, which gets the next number within that function. -/
def block (resolve : Resolver) (d : Declarations) (function : Nat) (p : Pos) :
    Except Error Nat × Declarations :=
  match d.locate resolve p with
  | .error e => (.error e, d)
  | .ok (location, d) =>
    -- the path stays listed if the function turns out to be unknown
    match d.functions[function]? with
    | none => (.error (.invalidTable (.undeclaredFunction function)), d)
    | some entry =>
      let id := entry.blocks.length
      match Event.checkOperand id with
      | .error e => (.error e, d)
      | .ok () =>
        let entry := { entry with blocks := entry.blocks ++ [some location] }
        (.ok id, { d with functions := d.functions.set function entry })

end Declarations

/-! ## With an index of the paths -/

/-- Declarations with the numbers of the listed paths at hand.  Lengths are cut to 32 bits where
they serve as numbers. -/
structure Register extends Declarations where
  indices : List (String × Nat)
deriving DecidableEq, Repr

namespace Register

def start (generated : String) : Register := ⟨.start generated, []⟩

/-- The number of a path, which is listed if the index does not have it. -/
def addPath (r : Register) (path : String) : Nat × Register :=
  match r.indices.lookup path with
  | some i => (i, r)
  | none =>
    let i := r.paths.length % 0x100000000
    (i, { r with paths := r.paths ++ [path], indices := (path, i) :: r.indices })

def locate (resolve : Resolver) (r : Register) (p : Pos) : Except Error (Location × Register) := do
  let source := (← resolve p).getD ⟨r.generated, p⟩
  let (path, r) := r.addPath source.path
  pure (⟨source.pos, path⟩, r)

/-- Declares a function, which gets the next number if there is one. -/
def function (resolve : Resolver) (r : Register) (p : Pos) : Except Error Nat × Register :=
  let id := r.functions.length % 0x100000000
  match Event.checkOperand id with
  | .error e => (.error e, r)
  | .ok () =>
    match r.locate resolve p with
    | .error e => (.error e, r)
    | .ok (location, r) =>
      (.ok id, { r with functions := r.functions ++ [⟨some location, []⟩] })

/-- Declares a block of a function, which gets the next number within that function. -/
def block (resolve : Resolver) (r : Register) (function : Nat) (p : Pos) :
    Except Error Nat × Register :=
  match r.locate resolve p with
  | .error e => (.error e, r)
  | .ok (location, r) =>
    match r.functions[function]? with
    | none => (.error (.invalidTable (.undeclaredFunction function)), r)
    | some entry =>
      let id := entry.blocks.length % 0x100000000
      match Event.checkOperand id with
      | .error e => (.error e, r)
      | .ok () =>
        let entry := { entry with blocks := entry.blocks ++ [some location] }
        (.ok id, { r with functions := r.functions.set function entry })

end Register

end Retrace
