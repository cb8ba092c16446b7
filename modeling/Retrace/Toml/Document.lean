import Retrace.Toml.Scalar

/-!
# TOML documents

* `Toml.key` — a key, which may have several parts;
* `Toml.value` — any value, with a bound on how deep it nests;
* `Toml.Statement` — a header or a key with its value;
* `Toml.ofText?` — the table that a document spells.
-/

namespace Retrace.Toml

open Reader

/-! ## Keys -/

def isBare (c : Char) : Bool := c.isAlphanum || c = '_' || c = '-'

/-- One part of a key. -/
def keyPart : Reader String := do
  match ← peek? with
  | some '"' => lineString
  | some '\'' => lineString
  | _ => String.ofList <$> takeWhile1 isBare

/-- Keys have less than this many parts, and values nest less deep. -/
def limit : Nat := 80

/-- The parts of a key but the last, and the last. -/
def key : Reader (List String × String) := do
  blanks
  let first ← keyPart
  blanks
  let rest ← many do
    if ← accept ['.'] then
      blanks
      let part ← keyPart
      blanks
      pure (some part)
    else pure none
  let parts := first :: rest
  if parts.length < limit then pure (parts.dropLast, parts.getLast?.getD first) else failure

/-! ## Values -/

/-- Blanks, line breaks and comments, as they may stand between the items of an array. -/
def gap : Reader Unit := do
  let _ ← many do
    if (← takeWhile isBlank) ≠ [] then pure (some ())
    else if (← attempt newline).isSome then pure (some ())
    else if (← peek?) = some '#' then do
      comment
      pure (some ())
    else pure none

/-- The rest of an array, after its opening bracket. -/
def arrayRest (item : Reader Value) : Reader Value := do
  let items ← many do
    gap
    if ← accept [']'] then pure none
    else
      let v ← item
      gap
      if ← accept [','] then pure (some v)
      else if (← peek?) = some ']' then pure (some v)
      else failure
  pure (.arr items)

/-- A key with its value, up to the comma or brace after it. -/
def inlineField (item : Reader Value) : Reader ((List String × String) × Value) := do
  let k ← key
  char '='
  blanks
  let v ← item
  blanks
  pure (k, v)

/-- The rest of a table in braces, after the opening one. -/
def inlineRest (item : Reader Value) : Reader Value := do
  blanks
  if ← accept ['\x7d'] then pure (.table .inline [])
  else
    let first ← inlineField item
    let rest ← many do
      if ← accept [','] then some <$> inlineField item else pure none
    char '\x7d'
    let start : Table := ⟨.inline, []⟩
    match (first :: rest).foldlM (fun t ((path, k), v) => put? path k v t) start with
    | some t => pure t.toValue
    | none => failure

/-- A value in which containers nest at most `depth` deep. -/
def value : Nat → Reader Value
  | 0 => do
    match ← peek? with
    | some '"' => .str <$> string
    | some '\'' => .str <$> string
    | _ => plain
  | depth + 1 => do
    match ← peek? with
    | some '"' => .str <$> string
    | some '\'' => .str <$> string
    | some '[' => do
      char '['
      arrayRest (value depth)
    | some '\x7b' => do
      char '\x7b'
      inlineRest (value depth)
    | _ => plain

/-! ## Statements -/

inductive Statement where
  | blank
  | header (path : List String) (key : String)
  | nextHeader (path : List String) (key : String)
  | field (path : List String) (key : String) (v : Value)

def statement : Reader Statement := do
  match ← peek? with
  | some '[' => do
    if ← accept ['[', '['] then
      let (path, k) ← key
      literal [']', ']']
      lineEnd
      pure (.nextHeader path k)
    else
      char '['
      let (path, k) ← key
      char ']'
      lineEnd
      pure (.header path k)
  | some '#' => do
    lineEnd
    pure .blank
  | some '\n' => do
    newline
    pure .blank
  | some '\r' => do
    newline
    pure .blank
  | _ => do
    let (path, k) ← key
    char '='
    blanks
    let v ← value (limit - 1)
    lineEnd
    pure (.field path k v)

def statements : Reader (List Statement) := many do
  blanks
  if ← atEnd then pure none else some <$> statement

/-- The table so far and the path of the header that fields belong to. -/
structure State where
  root : Table
  current : List String

def State.apply (s : State) : Statement → Option State
  | .blank => some s
  | .header path k => do
    pure ⟨← open? path k s.root, path ++ [k]⟩
  | .nextHeader path k => do
    pure ⟨← openNext? path k s.root, path ++ [k]⟩
  | .field path k v => do
    pure { s with root := ← alter false s.current (put? path k v) s.root }

/-- The fields of the table that a document spells.  A byte order mark in front does not count. -/
def ofText? (text : List Char) : Option Fields := do
  let text := if text.head? = some '\uFEFF' then text.tail else text
  let all ← all? statements text
  let s ← all.foldlM State.apply ⟨⟨.header, []⟩, []⟩
  pure s.root.fields

end Retrace.Toml
