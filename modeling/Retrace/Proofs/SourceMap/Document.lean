import Retrace.SourceMap.Document
import Retrace.Proofs.Json.Node

/-!
# Document — a source map read back from its text

* `SourceMap.Fits` — the version is a machine word;
* `SourceMap.ofNode?_toJson` — whatever fields it has, a map comes back from its JSON value;
* `SourceMap.ofText_toText` — and from its text, if it is of the version that is understood.
-/

namespace Retrace.SourceMap

/-- The version has 64 bits. -/
def Fits (m : SourceMap) : Prop := m.version < 0x10000000000000000

instance (m : SourceMap) : Decidable m.Fits := inferInstanceAs (Decidable (_ < _))

variable {m : SourceMap}

theorem strings?_node (l : List String) :
    (strings l).node.list? Node.string? = some l :=
  Node.list?_node fun s _ => Node.string?_node s

/-- Whatever fields it has, a map comes back from its JSON value. -/
theorem ofNode?_toJson (h : m.Fits) : ofNode? m.toJson.node = some m := by
  have hstring : ∀ s : String, (Json.str s).node.string? = some s ∧ (Json.str s).node ≠ .null :=
    fun s => ⟨Node.string?_node s, Node.noConfusion⟩
  have hversion : (Json.num m.version).node.nat? 0x10000000000000000 = some m.version :=
    Node.nat?_node h
  have hfile : Node.optional? (Node.option? Node.string?) none ((m.file.map .str).map Json.node)
      = some m.file :=
    Node.optional?_node fun s _ => hstring s
  have hroot : Node.optional? (Node.option? Node.string?) none
      ((m.sourceRoot.map .str).map Json.node) = some m.sourceRoot :=
    Node.optional?_node fun s _ => hstring s
  have hcontents : Node.optional? (Node.option? (Node.list? (Node.option? Node.string?))) none
      ((m.sourcesContent.map fun l => .arr (l.map (Json.ofOption .str))).map Json.node)
        = some m.sourcesContent :=
    Node.optional?_node fun l _ =>
      ⟨Node.list?_node fun s? _ => Node.option?_node fun s _ => hstring s, Node.noConfusion⟩
  have hrecord : m.toJson.node.record?
        ["version", "file", "sourceRoot", "sources", "sourcesContent", "names", "mappings"]
      = some [some (Json.num m.version).node, (m.file.map .str).map Json.node,
          (m.sourceRoot.map .str).map Json.node, some (strings m.sources).node,
          (m.sourcesContent.map fun l => .arr (l.map (Json.ofOption .str))).map Json.node,
          some (strings m.names).node, some (Json.str m.mappings).node] := by
    rw [toJson, Node.record?_node]
    · -- by which of the optional fields are there
      cases m.file <;> cases m.sourceRoot <;> cases m.sourcesContent <;> rfl
    · cases m.file <;> cases m.sourceRoot <;> cases m.sourcesContent <;> simp [optionalField]
  rw [ofNode?, hrecord]
  simp only [Option.bind_eq_bind, Option.bind_some, Node.required?, hversion, hfile, hroot,
    hcontents]
  simp only [Node.optional?, strings?_node, Node.string?_node, Option.bind_some]
  rfl

/-- A map comes back from its text if it is of version 3.  Of any other, the version is reported. -/
theorem ofText_toText (h : m.Fits) :
    ofText m.toText = if m.version = 3 then .ok m else .error (.unsupportedVersion m.version) := by
  rw [ofText, ofBytes, toText, Node.ofBytes?_compact, Option.bind_some, ofNode?_toJson h]

end Retrace.SourceMap
