import Retrace.Json.Node
import Retrace.Json.Value
import Retrace.SourceMap.Mappings
import Retrace.SourceMap.Propagate

/-!
# Source map documents

* `SourceMap` — a source map of version 3;
* `SourceMap.toText`, `SourceMap.ofText` — its JSON form;
* `SourceMap.lookup` — where a position of the generated file comes from;
* `SourceMap.applyPatch` — the map of the patched file.

The mappings stay text until they are asked for, so a document whose mappings cannot be read is a
document all the same.
-/

namespace Retrace

structure SourceMap where
  version : Nat
  file : Option String
  sourceRoot : Option String
  sources : List String
  sourcesContent : Option (List (Option String))
  names : List String
  mappings : String
deriving DecidableEq, Repr, Inhabited

namespace SourceMap

def ofMappings (sources names : List String) (mappings : String) : SourceMap :=
  ⟨3, none, none, sources, none, names, mappings⟩

/-! ## JSON -/

/-- A field that is left out where it has no value. -/
def optionalField (name : String) : Option Json → List (String × Json)
  | none => []
  | some j => [(name, j)]

def strings (l : List String) : Json := .arr (l.map .str)

def toJson (m : SourceMap) : Json :=
  .obj <|
    [("version", .num m.version)]
      ++ optionalField "file" (m.file.map .str)
      ++ optionalField "sourceRoot" (m.sourceRoot.map .str)
      ++ [("sources", strings m.sources)]
      ++ optionalField "sourcesContent"
        (m.sourcesContent.map fun l => .arr (l.map (Json.ofOption .str)))
      ++ [("names", strings m.names), ("mappings", .str m.mappings)]

def toText (m : SourceMap) : String := m.toJson.compact

/-- Only the version and the mappings have to be there. -/
def ofNode? (n : Node) : Option SourceMap := do
  match ← n.record?
    ["version", "file", "sourceRoot", "sources", "sourcesContent", "names", "mappings"] with
  | [version, file, sourceRoot, sources, sourcesContent, names, mappings] =>
    let version ← Node.required? (Node.nat? 0x10000000000000000) version
    let file ← Node.optional? (Node.option? Node.string?) none file
    let sourceRoot ← Node.optional? (Node.option? Node.string?) none sourceRoot
    let sources ← Node.optional? (Node.list? Node.string?) [] sources
    let sourcesContent ←
      Node.optional? (Node.option? (Node.list? (Node.option? Node.string?))) none sourcesContent
    let names ← Node.optional? (Node.list? Node.string?) [] names
    let mappings ← Node.required? Node.string? mappings
    pure { version, file, sourceRoot, sources, sourcesContent, names, mappings }
  | _ => none

/-- The map that a JSON document spells, which has to be of version 3. -/
def ofBytes (bytes : List UInt8) : Except Error SourceMap :=
  match (Node.ofBytes? bytes).bind ofNode? with
  | none => .error (.invalidSourceMap .syntaxError)
  | some m => if m.version = 3 then .ok m else .error (.unsupportedVersion m.version)

def ofText (s : String) : Except Error SourceMap := ofBytes (Utf8.ofString s)

/-! ## Using a map -/

/-- Where the text at a generated line and column comes from. -/
def lookup (m : SourceMap) (line column : Nat) : Except Error (Option Origin) := do
  pure ((← Mappings.decode m.mappings).lookup line column)

/-- The map of the file that `p` makes of the generated file. -/
def applyPatch (m : SourceMap) (p : Patch) : Except Error SourceMap := do
  let mappings ← Mappings.decode m.mappings
  pure { m with mappings := (mappings.applyPatch p).encode }

end SourceMap

end Retrace
