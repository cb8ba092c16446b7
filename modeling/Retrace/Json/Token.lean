import Retrace.Json.Numeral

/-!
# Lexical structure of JSON

* `Piece` — what a string literal consists of: plain bytes and `\u` escapes, not yet put together;
* `Token` — punctuation, literals, numerals and string literals;
* `Token.scan` — the tokens of some bytes, if they have the form of tokens throughout.

The scanner reads one byte at a time.  Its `Mode` is the token that has been begun.  Whether the
pieces of a string make a text is left to whoever reads the string: a value that nobody reads may
hold anything.
-/

namespace Retrace

/-- A part of a string literal: a byte, or a code unit written as an escape. -/
inductive Piece where
  | byte (b : UInt8)
  | unit (n : Nat)
deriving DecidableEq, Repr

inductive Token where
  | openBrace
  | closeBrace
  | openBracket
  | closeBracket
  | comma
  | colon
  | null
  | bool (b : Bool)
  | num (n : Numeral)
  | str (s : List Piece)
deriving DecidableEq, Repr

namespace Token

/-! ## Characters -/

/-- Space, tab, line feed and carriage return. -/
def isBlank (b : UInt8) : Bool := b = 32 || b = 9 || b = 10 || b = 13

def isLetter (b : UInt8) : Bool := 97 ≤ b.toNat && b.toNat ≤ 122

/-- May stand in a numeral. -/
def isNumeral (b : UInt8) : Bool :=
  (48 ≤ b.toNat && b.toNat ≤ 57) || b = 45 || b = 43 || b = 46 || b = 101 || b = 69

def punctuation? (b : UInt8) : Option Token :=
  if b = 123 then some openBrace
  else if b = 125 then some closeBrace
  else if b = 91 then some openBracket
  else if b = 93 then some closeBracket
  else if b = 44 then some comma
  else if b = 58 then some colon
  else none

def hexDigit? (b : UInt8) : Option Nat :=
  let n := b.toNat
  if 48 ≤ n ∧ n ≤ 57 then some (n - 48)
  else if 97 ≤ n ∧ n ≤ 102 then some (n - 87)
  else if 65 ≤ n ∧ n ≤ 70 then some (n - 55)
  else none

/-- The byte that a one-letter escape stands for. -/
def escape? (b : UInt8) : Option UInt8 :=
  if b = 34 then some 34
  else if b = 92 then some 92
  else if b = 47 then some 47
  else if b = 98 then some 8
  else if b = 102 then some 12
  else if b = 110 then some 10
  else if b = 114 then some 13
  else if b = 116 then some 9
  else none

/-! ## Words -/

/-- The letters of `null`, `true` and `false`. -/
def word? (letters : List UInt8) : Option Token :=
  if letters = [110, 117, 108, 108] then some null
  else if letters = [116, 114, 117, 101] then some (bool true)
  else if letters = [102, 97, 108, 115, 101] then some (bool false)
  else none

/-! ## Scanning -/

/-- The token begun, its parts so far in reverse. -/
inductive Mode where
  | idle
  | word (letters : List UInt8)
  | numeral (bytes : List UInt8)
  | string (pieces : List Piece)
  | escape (pieces : List Piece)
  | unit (pieces : List Piece) (missing value : Nat)
deriving DecidableEq, Repr

/-- What a byte outside every token gives and begins. -/
def beginAt (b : UInt8) : Option (List Token × Mode) :=
  if isBlank b then some ([], .idle)
  else if b = 34 then some ([], .string [])
  else if isLetter b then some ([], .word [b])
  else if isNumeral b then some ([], .numeral [b])
  else (punctuation? b).map fun t => ([t], .idle)

/-- A finished token in front of what the next byte gives. -/
def finish (t : Option Token) (b : UInt8) : Option (List Token × Mode) := do
  let (tokens, mode) ← beginAt b
  pure ((← t) :: tokens, mode)

def step : Mode → UInt8 → Option (List Token × Mode)
  | .idle, b => beginAt b
  | .word letters, b =>
    if isLetter b then some ([], .word (b :: letters)) else finish (word? letters.reverse) b
  | .numeral bytes, b =>
    if isNumeral b then some ([], .numeral (b :: bytes))
    else finish ((Numeral.ofBytes? bytes.reverse).map num) b
  | .string pieces, b =>
    if b = 34 then some ([str pieces.reverse], .idle)
    else if b = 92 then some ([], .escape pieces)
    else if b.toNat < 32 then none
    else some ([], .string (.byte b :: pieces))
  | .escape pieces, b =>
    if b = 117 then some ([], .unit pieces 4 0)
    else (escape? b).map fun c => ([], .string (.byte c :: pieces))
  | .unit pieces missing value, b => do
    let value := value * 16 + (← hexDigit? b)
    if missing = 1 then some ([], .string (.unit value :: pieces))
    else some ([], .unit pieces (missing - 1) value)

/-- What is left when the bytes end. -/
def close : Mode → Option (List Token)
  | .idle => some []
  | .word letters => (word? letters.reverse).map ([·])
  | .numeral bytes => (Numeral.ofBytes? bytes.reverse).map ([num ·])
  | _ => none

def scanFrom (mode : Mode) : List UInt8 → Option (List Token)
  | [] => close mode
  | b :: rest => do
    let (tokens, next) ← step mode b
    pure (tokens ++ (← scanFrom next rest))

def scan (bytes : List UInt8) : Option (List Token) := scanFrom .idle bytes

end Token

end Retrace
