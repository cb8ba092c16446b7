import Retrace.Path
import Retrace.SourceMap.Document
import Retrace.Trace.Declarations

/-!
# Source maps with their own path

The sources of a map are named relative to the directory of the map, or to its source root in there.

* `LocatedMap.sourcePath?` — the full path of a source;
* `LocatedMap.resolve` — a map as a resolver of positions.
-/

namespace Retrace

structure LocatedMap where
  map : SourceMap
  path : String
deriving DecidableEq, Repr

namespace LocatedMap

/-- The directory of the map, the source root if it is not empty, and the source. -/
def sourcePath? (m : LocatedMap) (source : Nat) : Option String := do
  let source ← m.map.sources[source]?
  let directory := (Path.parent? m.path.toList).getD []
  let root :=
    match m.map.sourceRoot with
    | some root => if root = "" then directory else Path.join directory root.toList
    | none => directory
  pure (String.ofList (Path.join root source.toList))

/-- A position comes from nowhere if the map says so or does not list its source. -/
def resolve (m : LocatedMap) : Resolver := fun p => do
  match ← m.map.lookup p.line p.column with
  | none => pure none
  | some o => pure ((m.sourcePath? o.source).map fun path => ⟨path, ⟨o.line, o.column⟩⟩)

end LocatedMap

end Retrace
