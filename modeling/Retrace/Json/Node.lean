import Retrace.Json.Token
import Retrace.Text.Utf8

/-!
# JSON documents

* `Node` — a well-formed document whose strings and numbers have not been looked at;
* `Node.ofTokens?`, `Node.ofBytes?` — building one;
* `Node.string?`, `Node.nat?`, `Node.list?`, `Node.record?`, … — reading one as a value.

A reader looks only at the parts it wants.  What it skips has to be well formed and nothing more:
strings there need not be text, numbers may be of any size, and nesting of any depth.
-/

namespace Retrace

inductive Node where
  | null
  | bool (b : Bool)
  | num (n : Numeral)
  | str (s : List Piece)
  | arr (items : List Node)
  | obj (fields : List (List Piece × Node))
deriving Inhabited

namespace Node

/-! ## Building -/

/-- A container that has been opened, with its parts so far in reverse. -/
inductive Frame where
  | arr (items : List Node)
  | obj (fields : List (List Piece × Node)) (label : List Piece)

/-- What has been built, and what may come next. -/
inductive State where
  | value (stack : List Frame)
  | item (stack : List Frame)
  | key (optional : Bool) (fields : List (List Piece × Node)) (stack : List Frame)
  | colon (fields : List (List Piece × Node)) (label : List Piece) (stack : List Frame)
  | moreItems (items : List Node) (stack : List Frame)
  | moreFields (fields : List (List Piece × Node)) (stack : List Frame)
  | done (n : Node)

/-- Hands a finished value to the container around it. -/
def State.deliver (n : Node) : List Frame → State
  | [] => .done n
  | .arr items :: stack => .moreItems (n :: items) stack
  | .obj fields label :: stack => .moreFields ((label, n) :: fields) stack

/-- A token where a value is due. -/
def State.begin (stack : List Frame) : Token → Option State
  | .null => some (deliver .null stack)
  | .bool b => some (deliver (.bool b) stack)
  | .num n => some (deliver (.num n) stack)
  | .str s => some (deliver (.str s) stack)
  | .openBracket => some (.item stack)
  | .openBrace => some (.key true [] stack)
  | _ => none

def State.step : State → Token → Option State
  | .value stack, t => begin stack t
  | .item stack, .closeBracket => some (deliver (.arr []) stack)
  | .item stack, t => begin (.arr [] :: stack) t
  | .key _ fields stack, .str s => some (.colon fields s stack)
  | .key true _ stack, .closeBrace => some (deliver (.obj []) stack)
  | .colon fields label stack, .colon => some (.value (.obj fields label :: stack))
  | .moreItems items stack, .comma => some (.value (.arr items :: stack))
  | .moreItems items stack, .closeBracket => some (deliver (.arr items.reverse) stack)
  | .moreFields fields stack, .comma => some (.key false fields stack)
  | .moreFields fields stack, .closeBrace => some (deliver (.obj fields.reverse) stack)
  | _, _ => none

def State.finish : State → Option Node
  | .done n => some n
  | _ => none

/-- The document that tokens spell, with no token left over. -/
def ofTokens? (tokens : List Token) : Option Node := do
  (← tokens.foldlM State.step (.value [])).finish

def ofBytes? (bytes : List UInt8) : Option Node := (Token.scan bytes).bind ofTokens?

def ofString? (s : String) : Option Node := ofBytes? (Utf8.ofString s)

/-! ## Strings -/

/-- The bytes of a string literal.  Escaped code units that are halves of a pair have to come in
pairs. -/
def textBytes? : List Piece → Option (List UInt8)
  | [] => some []
  | .byte b :: rest => (textBytes? rest).map (b :: ·)
  | .unit hi :: rest =>
    if 0xDC00 ≤ hi ∧ hi < 0xE000 then none
    else if 0xD800 ≤ hi ∧ hi < 0xDC00 then
      match rest with
      | .unit lo :: after =>
        if 0xDC00 ≤ lo ∧ lo < 0xE000 then
          (textBytes? after).map
            (Utf8.encode [Char.ofNat (0x10000 + (hi - 0xD800) * 0x400 + (lo - 0xDC00))] ++ ·)
        else none
      | _ => none
    else (textBytes? rest).map (Utf8.encode [Char.ofNat hi] ++ ·)

def text? (s : List Piece) : Option String :=
  ((textBytes? s).bind Utf8.decode?).map String.ofList

/-! ## Reading -/

def string? : Node → Option String
  | .str s => text? s
  | _ => none

/-- A number below `bound` written as bare digits. -/
def nat? (bound : Nat) : Node → Option Nat
  | .num n => n.nat? bound
  | _ => none

/-- An array of which every item can be read. -/
def list? {α : Type} (read : Node → Option α) : Node → Option (List α)
  | .arr items => items.mapM read
  | _ => none

/-- A value or `null`. -/
def option? {α : Type} (read : Node → Option α) : Node → Option (Option α)
  | .null => some none
  | n => (read n).map some

/-- Fields with their names as text. -/
def named? (fields : List (List Piece × Node)) : Option (List (String × Node)) :=
  fields.mapM fun (label, n) => (text? label).map (·, n)

/-- The values of some fields, in the order of their names.  Fields of other names are skipped, one
that occurs twice is refused.  A record may also be written as the array of its fields, of which the
last ones may be missing. -/
def record? (names : List String) : Node → Option (List (Option Node))
  | .obj fields => do
    let fields ← named? fields
    names.mapM fun name =>
      match fields.filter (·.1 = name) with
      | [] => some none
      | [(_, n)] => some (some n)
      | _ => none
  | .arr items =>
    if items.length ≤ names.length then
      some ((items.map some ++ List.replicate (names.length - items.length) none))
    else none
  | _ => none

/-- A field that has to be there. -/
def required? {α : Type} (read : Node → Option α) (field : Option Node) : Option α :=
  field.bind read

/-- A field that stands for `default` where it is missing. -/
def optional? {α : Type} (read : Node → Option α) (default : α) : Option Node → Option α
  | none => some default
  | some n => read n

end Node

end Retrace
