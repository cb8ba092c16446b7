/-!
# UTF-8

* `Utf8.encode` — the bytes of a text;
* `Utf8.decode?` — the text of well-formed bytes;
* `Utf8.decodeLossy` — reading any bytes, one replacement character for each maximal stretch that
  begins a character and is not continued, and for each byte that begins none.

Both readers fold one step function over the bytes.  Its state is the unfinished character, with the
bounds that its next byte has to keep: they are what rules out overlong forms, surrogates and values
past the last code point.
-/

namespace Retrace.Utf8

def encode (text : List Char) : List UInt8 := text.flatMap String.utf8EncodeChar

/-- The bytes of a string. -/
def ofString (s : String) : List UInt8 := encode s.toList

/-! ## Reading byte by byte -/

/-- A character of which `missing` more bytes are to come, the next one between `low` and `high`. -/
structure Pending where
  missing : Nat
  low : Nat
  high : Nat
  value : Nat
deriving DecidableEq, Repr

/-- What a byte means where a character may begin: the whole of one, its first byte, or nothing. -/
def lead (b : UInt8) : Option (Char ⊕ Pending) :=
  let n := b.toNat
  if n < 0x80 then some (.inl (Char.ofNat n))
  else if n < 0xC2 then none
  else if n < 0xE0 then some (.inr ⟨1, 0x80, 0xBF, n - 0xC0⟩)
  else if n = 0xE0 then some (.inr ⟨2, 0xA0, 0xBF, 0⟩)
  else if n = 0xED then some (.inr ⟨2, 0x80, 0x9F, n - 0xE0⟩)
  else if n < 0xF0 then some (.inr ⟨2, 0x80, 0xBF, n - 0xE0⟩)
  else if n = 0xF0 then some (.inr ⟨3, 0x90, 0xBF, 0⟩)
  else if n < 0xF4 then some (.inr ⟨3, 0x80, 0xBF, n - 0xF0⟩)
  else if n = 0xF4 then some (.inr ⟨3, 0x80, 0x8F, n - 0xF0⟩)
  else none

/-- What one byte completes, `none` standing for a malformed stretch, and what it leaves open. -/
def begin (b : UInt8) : List (Option Char) × Option Pending :=
  match lead b with
  | none => ([none], none)
  | some (.inl c) => ([some c], none)
  | some (.inr p) => ([], some p)

def step : Option Pending → UInt8 → List (Option Char) × Option Pending
  | none, b => begin b
  | some p, b =>
    -- a byte that does not continue the character may begin the next one
    if p.low ≤ b.toNat ∧ b.toNat ≤ p.high then
      let value := p.value * 64 + (b.toNat - 0x80)
      if p.missing = 1 then ([some (Char.ofNat value)], none)
      else ([], some ⟨p.missing - 1, 0x80, 0xBF, value⟩)
    else
      let (marks, next) := begin b
      (none :: marks, next)

/-- The characters of the bytes, with `none` for every malformed stretch. -/
def marks : Option Pending → List UInt8 → List (Option Char)
  | none, [] => []
  | some _, [] => [none]
  | state, b :: rest =>
    let (out, next) := step state b
    out ++ marks next rest

def decode? (bytes : List UInt8) : Option (List Char) := (marks none bytes).mapM id

def decodeLossy (bytes : List UInt8) : List Char := (marks none bytes).map (·.getD '\uFFFD')

end Retrace.Utf8
