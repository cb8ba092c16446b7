import Retrace.Json.Node
import Retrace.Json.Value
import Retrace.Trace.Event

/-!
# Events as JSON

An event is a record whose field `type` says what kind it is.  It may also be written as an array of
that name and the other field.

The type may come last, so the other fields are kept until it is known.  What is kept has to be
sound, even in fields that turn out to be none of the event's: strings have to be texts, numbers
must not overflow, and nesting has a limit.
-/

namespace Retrace

namespace Node

/-! ## Sound values -/

mutual

/-- Every string is a text, no number overflows, and containers nest at most `depth` deep. -/
def sound (depth : Nat) : Node → Bool
  | .null => true
  | .bool _ => true
  | .num n => ¬ n.Overflows
  | .str s => (text? s).isSome
  | .arr items => depth ≠ 0 && soundItems (depth - 1) items
  | .obj fields => depth ≠ 0 && soundFields (depth - 1) fields

def soundItems (depth : Nat) : List Node → Bool
  | [] => true
  | n :: rest => sound depth n && soundItems depth rest

def soundFields (depth : Nat) : List (List Piece × Node) → Bool
  | [] => true
  | (label, n) :: rest => (text? label).isSome && sound depth n && soundFields depth rest

end

/-- How deep a document may nest that is kept before it is read. -/
def maxDepth : Nat := 127

end Node

namespace Event

/-! ## Writing -/

def typeName : Event → String
  | setModule _ => "SetModuleId"
  | table _ => "SetModuleInfo"
  | call _ => "CallFunction"
  | block _ => "ReachedBlock"
  | ret => "ReturnFunction"

def fields : Event → List (String × Json)
  | setModule id => [("module_id", .num id)]
  | table payload => [("module_info_json", .str (payloadText payload))]
  | call function => [("function_id", .num function)]
  | block id => [("block_id", .num id)]
  | ret => []

def toJson (e : Event) : Json := .obj (("type", .str e.typeName) :: e.fields)

/-! ## Reading -/

/-- The name of the field of a kind of event, and how its value makes the event.  Returns have no
field. -/
def shape? (type : String) : Option (Option (String × (Node → Option Event))) :=
  let id (make : Nat → Event) (n : Node) := (n.nat? 0x100000000).map make
  match type with
  | "SetModuleId" => some (some ("module_id", id setModule))
  | "SetModuleInfo" =>
    some (some ("module_info_json", fun n => n.string?.map fun s => table (Utf8.ofString s)))
  | "CallFunction" => some (some ("function_id", id call))
  | "ReachedBlock" => some (some ("block_id", id block))
  | "ReturnFunction" => some none
  | _ => none

/-- The event of a kind, given its fields by name. -/
def ofFields? (type : String) (fields : List (String × Node)) : Option Event := do
  match ← shape? type with
  | none => some ret
  | some (name, read) =>
    match fields.filter (·.1 = name) with
    | [(_, n)] => read n
    | _ => none

/-- The event of a kind, given its fields in order. -/
def ofItems? (type : String) (items : List Node) : Option Event := do
  match ← shape? type, items with
  | none, [] => some ret
  | some (_, read), [n] => read n
  | _, _ => none

def ofNode? (n : Node) : Option Event :=
  if n.sound Node.maxDepth then
    match n with
    | .obj fields => do
      let fields ← Node.named? fields
      match fields.filter (·.1 = "type") with
      | [(_, type)] => ofFields? (← type.string?) fields
      | _ => none
    | .arr (type :: items) => do ofItems? (← type.string?) items
    | _ => none
  else none

/-- The event that a JSON document spells. -/
def ofText? (s : String) : Option Event := (Node.ofString? s).bind ofNode?

end Event

end Retrace
