import Retrace.Text.PatchJson

/-!
# Tables of source locations

* `Table` — where the functions of a module and their blocks stand in its sources;
* `Table.locate` — the place of a function or of one of its blocks;
* `Place` — a function or block with its place in a named source.

Ids are positions in the table.  An id that the table does not know has no location, and neither has
one whose path the table does not list.
-/

namespace Retrace

/-- A position in the source of index `path`. -/
structure Location where
  pos : Pos
  path : Nat
deriving DecidableEq, Repr, Inhabited

/-- A function and its blocks. -/
structure FunctionEntry where
  location : Option Location
  blocks : List (Option Location)
deriving DecidableEq, Repr, Inhabited

/-- The location of a block, or of the function itself if no block is given. -/
def FunctionEntry.locate (f : FunctionEntry) : Option Nat → Option Location
  | none => f.location
  | some b => f.blocks[b]?.join

structure Table where
  paths : List String
  functions : List FunctionEntry
deriving DecidableEq, Repr, Inhabited

/-- A position in a source given by its path. -/
structure SourcePos where
  path : String
  pos : Pos
deriving DecidableEq, Repr, Inhabited

/-- A function or block and where it stands, if that is known. -/
structure Place where
  function : Nat
  block : Option Nat
  source : Option SourcePos
deriving DecidableEq, Repr, Inhabited

namespace Table

def blockCount (t : Table) : Nat := (t.functions.flatMap (·.blocks)).length

/-- The position in a named source that a location stands for. -/
def sourcePos? (t : Table) (l : Location) : Option SourcePos :=
  t.paths[l.path]?.map fun path => ⟨path, l.pos⟩

def locate (t : Table) (function : Nat) (block : Option Nat) : Place where
  function := function
  block := block
  source := (t.functions[function]?.bind fun f => f.locate block).bind t.sourcePos?

end Table

/-! ## Rendering -/

/-- Lines and columns count from one here. -/
instance : ToString SourcePos where
  toString s := s!"{s.path}:{s.pos.line + 1}:{s.pos.column + 1}"

namespace Place

instance : ToString Place where
  toString p :=
    let source := (p.source.map toString).getD "?"
    let block := (p.block.map fun b => s!"#{b}").getD ""
    s!"{source} \x7b{p.function}{block}\x7d"

end Place

def SourcePos.toJson (s : SourcePos) : Json :=
  .obj [("source_path", .str s.path), ("pos", s.pos.toJson)]

def Place.toJson (p : Place) : Json :=
  .obj
    [("function_id", .num p.function), ("block_id", .ofOption .num p.block),
      ("location", .ofOption SourcePos.toJson p.source)]

end Retrace
