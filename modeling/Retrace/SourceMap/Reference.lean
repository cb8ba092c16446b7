import Retrace.Base64
import Retrace.SourceMap.Document
import Retrace.Text.Blank
import Retrace.Text.LineTable

/-!
# References to source maps

A generated file names its source map in a comment on its last line that is not blank.

* `LastLine` — that line, with what stands before and after it;
* `LastLine.scan?` — the same line with its bytes, found in one pass from the end;
* `Reference.find?`, `Reference.set` — reading and writing the reference of a file;
* `Reference.locate?` — the reference with the bytes of its line;
* `Reference.inline`, `Reference.inlineMap?` — references that hold the whole map.
-/

namespace Retrace

/-! ## The last line that is not blank -/

/-- A text in three parts of which the middle one is a line. -/
structure LastLine where
  before : List Char
  line : List Char
  after : List Char
deriving DecidableEq, Repr

namespace LastLine

/-- The last line with a character that is neither a space, a tab nor a carriage return. -/
def ofText? (text : List Char) : Option LastLine :=
  let body := Blank.dropEndWhile Blank.isFill text
  let fill := Blank.takeEndWhile Blank.isFill text
  if body = [] then none
  else
    some
      { before := Blank.dropEndWhile (· ≠ '\n') body
        line := Blank.takeEndWhile (· ≠ '\n') body ++ fill.takeWhile (· ≠ '\n')
        after := fill.dropWhile (· ≠ '\n') }

/-- The bytes that the line takes up. -/
def span (l : LastLine) : Span :=
  Span.ofStartLength (Text.byteLength l.before) (Text.byteLength l.line)

/-- Goes back through characters and their offsets.  The line that is being read stops at `stop`, and
`filled` says whether it has shown a character that is not blank. -/
def scanBack (stop : Nat) (filled : Bool) : List (Nat × Char) → Option Span
  | [] => if filled then some (Span.ofLength stop) else none
  | (i, c) :: rest =>
    if c = '\n' then
      -- a line without content is left behind
      if filled then Span.ofBounds? (i + 1) stop else scanBack i false rest
    else scanBack stop (filled || !Blank.isFill c) rest

/-- The last line with a character that is not blank, and the bytes that it takes up. -/
def scan? (text : List Char) : Option (List Char × Span) := do
  let span ← scanBack (Text.byteLength text) false (Text.charOffsets 0 text).reverse
  let line ← span.substring? text
  pure (line, span)

end LastLine

/-! ## References -/

structure Reference where
  url : String
deriving DecidableEq, Repr

namespace Reference

/-- What a line starts with that holds a reference. -/
def marker : List Char := "//# sourceMappingURL=".toList

def comment (r : Reference) : List Char := marker ++ r.url.toList

instance : ToString Reference where
  toString r := String.ofList (r.comment ++ ['\n'])

/-- The text after `start`, if it starts so. -/
def after? : List Char → List Char → Option (List Char)
  | [], text => some text
  | _ :: _, [] => none
  | c :: start, d :: text => if c = d then after? start text else none

/-- The reference on a line, without white space around it. -/
def ofLine? (line : List Char) : Option Reference :=
  (after? marker line).map fun url => ⟨String.ofList (Blank.trim url)⟩

/-- The reference of a file and the line that holds it. -/
def findLine? (text : List Char) : Option (Reference × LastLine) := do
  let l ← LastLine.ofText? text
  let r ← ofLine? l.line
  pure (r, l)

def find? (text : String) : Option Reference := (findLine? text.toList).map Prod.fst

/-- The bytes of the line that holds the reference of a file. -/
def span? (text : String) : Option Span := (findLine? text.toList).map fun (_, l) => l.span

/-- The reference of a file and the bytes of the line that holds it. -/
def locate? (text : String) : Option (Reference × Span) := do
  let (line, span) ← LastLine.scan? text.toList
  let r ← ofLine? line
  pure (r, span)

/-- The text with another reference, or with none, in place of the one it has.  A file without a
reference gets a line at its end. -/
def setChars (text : List Char) (r? : Option Reference) : List Char :=
  let line := (r?.map comment).getD []
  match findLine? text, r? with
  | some (_, l), _ => l.before ++ line ++ l.after
  | none, none => text
  | none, some _ =>
    let separator := if text = [] ∨ text.getLast? = some '\n' then [] else ['\n']
    text ++ separator ++ line ++ ['\n']

def set (text : String) (r? : Option Reference) : String :=
  String.ofList (setChars text.toList r?)

/-! ## Inline maps -/

/-- What a URL starts with that holds a map. -/
def inlineMarker : List Char := "data:application/json;charset=utf-8;base64,".toList

/-- A reference that holds the whole map. -/
def inline (m : SourceMap) : Reference :=
  ⟨String.ofList (inlineMarker ++ Base64.encode (Utf8.ofString m.toText))⟩

/-- The map that a reference holds, or nothing if it refers to a file. -/
def inlineMap? (r : Reference) : Except Error (Option SourceMap) :=
  match after? inlineMarker r.url.toList with
  | none => .ok none
  | some data =>
    match Base64.decode? (Utf8.encode (Blank.trim data)) with
    | none => .error (.invalidSourceMap .inlineData)
    | some bytes =>
      if (Utf8.decode? bytes).isNone then .error (.invalidSourceMap .inlineData)
      else (SourceMap.ofBytes bytes).map some

end Reference

end Retrace
