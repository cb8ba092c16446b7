/-!
# TOML values and tables

* `Toml.Value` — a value; of floats and moments only that they are there;
* `Toml.Origin` — how a table came about, which decides who may still add to it;
* `Toml.alter` — changing the table at the end of a path, with those on the way made as needed;
* `Toml.put?`, `Toml.open?`, `Toml.openNext?` — a key with its value and the two kinds of header.

A table has one definition.  One that a header has only passed through may still get a header of its
own, one that was made by dotted keys may get more of those, and one written in braces is complete.
-/

namespace Retrace.Toml

/-- How a table came about. -/
inductive Origin where
  | inline
  | header
  | implied
  | dotted
deriving DecidableEq, Repr

inductive Value where
  | str (s : String)
  | int (n : Int)
  | bool (b : Bool)
  | float
  | moment
  | arr (items : List Value)
  | tables (items : List Value)
  | table (origin : Origin) (fields : List (String × Value))
deriving Inhabited

abbrev Fields := List (String × Value)

/-- A table that is still being filled. -/
structure Table where
  origin : Origin
  fields : Fields

namespace Table

def toValue (t : Table) : Value := .table t.origin t.fields

/-- Changes the value of a key, or adds the key. -/
def set (t : Table) (key : String) (v : Value) : Table :=
  if t.fields.any (·.1 = key) then
    { t with fields := t.fields.map fun (k, w) => if k = key then (k, v) else (k, w) }
  else { t with fields := t.fields ++ [(key, v)] }

end Table

/-! ## Reaching a table -/

/-- The table that a path step leads into, and how to put it back.  Dotted keys do not lead into
tables that have a definition of their own; a path through an array leads into its last table. -/
def enter? (dotted : Bool) : Option Value → Option (Table × (Table → Value))
  | none => some (⟨if dotted then .dotted else .implied, []⟩, Table.toValue)
  | some (.table origin fields) =>
    if origin = .inline ∨ (origin = .header ∧ dotted) then none
    else some (⟨origin, fields⟩, Table.toValue)
  | some (.tables items) =>
    match items.getLast? with
    | some (.table origin fields) =>
      some (⟨origin, fields⟩, fun t => .tables (items.dropLast ++ [t.toValue]))
    | _ => none
  | some _ => none

/-- Changes the table at the end of `path` by `f`. -/
def alter (dotted : Bool) (path : List String) (f : Table → Option Table) (t : Table) :
    Option Table :=
  match path with
  | [] => f t
  | key :: rest => do
    let (child, restore) ← enter? dotted (t.fields.lookup key)
    let child ← alter dotted rest f child
    pure (t.set key (restore child))

/-! ## Statements -/

/-- Adds a key that is not there yet. -/
def addNew (key : String) (v : Value) (t : Table) : Option Table :=
  if (t.fields.lookup key).isSome then none else some (t.set key v)

/-- Adds a value under a dotted key.  Only tables that dotted keys have made take more of them. -/
def put? (path : List String) (key : String) (v : Value) (t : Table) : Option Table :=
  alter true path (fun t => if path ≠ [] ∧ t.origin ≠ .dotted then none else addNew key v t) t

/-- The header of a table, which may so far only have been passed through. -/
def open? (path : List String) (key : String) (t : Table) : Option Table :=
  alter false path (fun t =>
    match t.fields.lookup key with
    | none => some (t.set key (.table .header []))
    | some (.table .implied fields) => some (t.set key (.table .header fields))
    | some _ => none) t

/-- The header of one more table of an array. -/
def openNext? (path : List String) (key : String) (t : Table) : Option Table :=
  alter false path (fun t =>
    match t.fields.lookup key with
    | none => some (t.set key (.tables [.table .header []]))
    | some (.tables items) => some (t.set key (.tables (items ++ [.table .header []])))
    | some _ => none) t

end Retrace.Toml
