import Retrace.Error
import Retrace.Text.Utf8
import Retrace.Toml.Document

/-!
# Settings

* `Settings` — how many stacks a timeline keeps, and the form in which answers are wanted;
* `Settings.ofBytes?` — the settings in a file, if there is one.

Sections and fields may be missing, and other ones may be there.  A section may also be written as
an array of its fields.
-/

namespace Retrace

structure Settings where
  cacheSize : Nat
  format : Option String
deriving DecidableEq, Repr, Inhabited

namespace Settings

def default : Settings := ⟨64, none⟩

/-- Where settings are looked for. -/
def fileName : String := ".code-insight.toml"

/-- Answers are wanted as JSON. -/
def prefersJson (s : Settings) : Bool := s.format = some "json"

/-! ## Reading -/

/-- The only field of a section.  A date has no fields of its own. -/
def field? (name : String) : Toml.Value → Option (Option Toml.Value)
  | .table _ fields => some (fields.lookup name)
  | .arr items => some items.head?
  | .tables items => some items.head?
  | .moment => some none
  | _ => none

/-- The field of a section that may be missing, as may the field. -/
def read? {α : Type} (section? : Option Toml.Value) (name : String) (default : α)
    (read : Toml.Value → Option α) : Option α :=
  match section? with
  | none => some default
  | some v => do
    match ← field? name v with
    | none => some default
    | some w => read w

def ofFields? (fields : Toml.Fields) : Option Settings := do
  let cacheSize ← read? (fields.lookup "replay") "stack_cache_size" default.cacheSize fun
    | .int n => if 0 ≤ n then some n.toNat else none
    | _ => none
  let format ← read? (fields.lookup "output") "format" default.format fun
    | .str s => some (some s)
    | _ => none
  pure ⟨cacheSize, format⟩

/-- The settings in the bytes of a file, the usual ones if there is none. -/
def ofBytes? : Option (List UInt8) → Except Error Settings
  | none => .ok default
  | some bytes =>
    match (Utf8.decode? bytes).bind fun text => (Toml.ofText? text).bind ofFields? with
    | some s => .ok s
    | none => .error (.fileError "Failed to parse TOML config")

end Settings

end Retrace
