import Retrace.Json.Numeral
import Retrace.Text.Reader
import Retrace.Toml.Value

/-!
# TOML strings, numbers and moments

* `Toml.blanks`, `Toml.newline`, `Toml.lineEnd` — what stands between things;
* `Toml.string` — the four kinds of strings;
* `Toml.plain` — booleans, integers, floats, dates and times.

Anything that is not a string starts and ends with a letter, a digit, a sign, a point or a colon, so
it is cut out first and then has to match one of the forms as a whole.
-/

namespace Retrace.Toml

open Reader

/-! ## Blanks and comments -/

def isBlank (c : Char) : Bool := c = ' ' || c = '\t'

def blanks : Reader Unit := do
  let _ ← takeWhile isBlank

/-- May stand in a comment: no control character but the tab. -/
def isComment (c : Char) : Bool := c = '\t' || (0x20 ≤ c.toNat && c.toNat ≠ 0x7F)

/-- A line feed, which a carriage return may precede. -/
def newline : Reader Unit := do
  let _ ← accept ['\r']
  char '\n'

/-- A comment, if there is one. -/
def comment : Reader Unit := do
  if ← accept ['#'] then
    let _ ← takeWhile isComment

/-- The end of a line that holds nothing more but a comment. -/
def lineEnd : Reader Unit := do
  blanks
  comment
  if ← atEnd then pure () else newline

/-! ## Strings -/

def hexValue? (c : Char) : Option Nat :=
  let n := c.toNat
  if 48 ≤ n ∧ n ≤ 57 then some (n - 48)
  else if 97 ≤ n ∧ n ≤ 102 then some (n - 87)
  else if 65 ≤ n ∧ n ≤ 70 then some (n - 55)
  else none

/-- The character whose code point is written in `n` hexadecimal digits. -/
def codePoint : Nat → Nat → Reader Char
  | 0, value => if value.isValidChar then pure (Char.ofNat value) else failure
  | n + 1, value => do
    let c ← satisfy fun c => (hexValue? c).isSome
    codePoint n (16 * value + (hexValue? c).getD 0)

/-- The rest of an escape, after the backslash. -/
def escape : Reader Char := do
  match ← satisfy fun _ => true with
  | 'b' => pure '\x08'
  | 't' => pure '\t'
  | 'n' => pure '\n'
  | 'f' => pure '\x0c'
  | 'r' => pure '\r'
  | '"' => pure '"'
  | '\\' => pure '\\'
  | 'u' => codePoint 4 0
  | 'U' => codePoint 8 0
  | _ => failure

/-- Up to the quotation mark that ends a string on one line. -/
def basicRest : Reader (List Char) := many do
  if ← accept ['"'] then pure none
  else if ← accept ['\\'] then some <$> escape
  else some <$> satisfy isComment

def literalRest : Reader (List Char) := do
  let text ← takeWhile fun c => c ≠ '\'' && isComment c
  char '\''
  pure text

/-- What follows a backslash at the end of a line: blanks and line breaks that do not count. -/
def foldedLine : Reader Unit := do
  blanks
  newline
  let _ ← many do
    if ← accept ['\n'] then pure (some ())
    else if ← accept ['\r', '\n'] then pure (some ())
    else if (← takeWhile isBlank) = [] then pure none
    else pure (some ())

/-- The quotation marks that end a string of several lines.  Up to two more in front of the three
belong to it. -/
def closing (quote : Char) : Reader (List Char) := do
  literal [quote, quote, quote]
  let first ← accept [quote]
  let second ← accept [quote]
  pure (List.replicate (first.toNat + second.toNat) quote)

/-- The rest of a string of several lines.  A line break right at its start does not count. -/
def multilineRest (quote : Char) (escapes : Bool) : Reader (List Char) := do
  let _ ← attempt newline
  let parts ← many do
    if (← get).take 3 = [quote, quote, quote] then pure none
    else if (← attempt newline).isSome then pure (some ['\n'])
    else if ← acceptOne (if escapes then ['\\'] else []) then
      if (← attempt foldedLine).isSome then pure (some []) else (fun c => some [c]) <$> escape
    else (fun c => some [c]) <$> satisfy isComment
  let quotes ← closing quote
  pure (parts.flatten ++ quotes)

/-- A string that fits on one line, as keys may be. -/
def lineString : Reader String := do
  if ← accept ['"'] then String.ofList <$> basicRest
  else do
    char '\''
    String.ofList <$> literalRest

def string : Reader String := do
  if ← accept ['"', '"', '"'] then String.ofList <$> multilineRest '"' true
  else if ← accept ['\'', '\'', '\''] then String.ofList <$> multilineRest '\'' false
  else lineString

/-! ## Numbers -/

/-- Digits that may be parted by single underscores. -/
def digitRun (isDigit : Char → Bool) : Reader (List Char) := do
  let first ← satisfy isDigit
  let rest ← many do
    if ← accept ['_'] then some <$> satisfy isDigit
    else attempt (satisfy isDigit)
  pure (first :: rest)

def decimalRun : Reader (List Nat) := do
  pure ((← digitRun Char.isDigit).map fun c => c.toNat - 48)

/-- Whether the number is negative. -/
def sign : Reader Bool := do
  if ← accept ['-'] then pure true
  else
    let _ ← accept ['+']
    pure false

/-- Decimal digits without a zero in front. -/
def wholeDigits : Reader (List Nat) := do
  match ← decimalRun with
  | 0 :: _ :: _ => failure
  | ds => pure ds

/-- A number that fits into 64 bits with a sign. -/
def int64 (n : Int) : Reader Value :=
  if -0x8000000000000000 ≤ n ∧ n < 0x8000000000000000 then pure (.int n) else failure

def decimal : Reader Value := do
  let negative ← sign
  let n : Int := Numeral.value (← wholeDigits)
  int64 (if negative then -n else n)

/-- An unsigned number in a base that a letter stands for. -/
def based (letter : Char) (base : Nat) : Reader Value := do
  literal ['0', letter]
  let ds ← digitRun fun c => (hexValue? c).any (· < base)
  int64 (ds.foldl (fun n c => base * n + (hexValue? c).getD 0) 0 : Nat)

/-- A number with a fraction or an exponent.  It must not be too large, unless it is negative. -/
def float : Reader Value := do
  let negative ← sign
  let whole ← wholeDigits
  let fraction ← if ← accept ['.'] then decimalRun else pure []
  let exponent ←
    if ← acceptOne ['e', 'E'] then do
      let negative ← sign
      let n : Int := Numeral.value (← decimalRun)
      pure (some (if negative then -n else n))
    else pure none
  let n : Numeral := { negative, whole, fraction, exponent }
  if (fraction = [] ∧ exponent = none) ∨ (¬ negative ∧ n.Huge) then failure else pure .float

def specialFloat : Reader Value := do
  let _ ← sign
  if ← accept ['i', 'n', 'f'] then pure .float
  else do
    literal ['n', 'a', 'n']
    pure .float

/-! ## Moments -/

/-- A number of exactly `n` digits that lies between two bounds. -/
def fixed (n low high : Nat) : Reader Nat := do
  let ds ← (List.range n).mapM fun _ => satisfy Char.isDigit
  let value := Numeral.value (ds.map fun c => c.toNat - 48)
  if low ≤ value ∧ value ≤ high then pure value else failure

def isLeap (year : Nat) : Bool := year % 4 = 0 && (year % 100 ≠ 0 || year % 400 = 0)

def daysIn (year month : Nat) : Nat :=
  if month = 2 then if isLeap year then 29 else 28
  else if month = 4 ∨ month = 6 ∨ month = 9 ∨ month = 11 then 30
  else 31

def date : Reader Unit := do
  let year ← fixed 4 0 9999
  char '-'
  let month ← fixed 2 1 12
  char '-'
  let _ ← fixed 2 1 (daysIn year month)

/-- A time of day.  A minute may have a leap second. -/
def time : Reader Unit := do
  let _ ← fixed 2 0 23
  char ':'
  let _ ← fixed 2 0 59
  char ':'
  let _ ← fixed 2 0 60
  if ← accept ['.'] then
    let _ ← takeWhile1 Char.isDigit

/-- The distance from universal time. -/
def offset : Reader Unit := do
  if ← acceptOne ['Z', 'z'] then pure ()
  else do
    let _ ← satisfy fun c => c = '+' || c = '-'
    let _ ← fixed 2 0 23
    char ':'
    let _ ← fixed 2 0 59

def timeOffset : Reader Unit := do
  time
  let _ ← attempt offset

def dateTime : Reader Unit := do
  date
  let _ ← satisfy fun c => c = 'T' || c = 't'
  timeOffset

/-! ## Everything but strings -/

/-- May stand in a value that is no string, array or table. -/
def isPlain (c : Char) : Bool := c.isAlphanum || c = '_' || c = '+' || c = '-' || c = '.' || c = ':'

/-- The forms that a value without blanks may have. -/
def plainForms : List (Reader Value) :=
  [do literal "true".toList; pure (.bool true),
    do literal "false".toList; pure (.bool false),
    decimal, based 'x' 16, based 'o' 8, based 'b' 2, float, specialFloat,
    do date; pure .moment,
    do time; pure .moment,
    do dateTime; pure .moment]

/-- A boolean, a number or a moment.  A date and its time may be parted by a space. -/
def plain : Reader Value := do
  let token ← takeWhile1 isPlain
  match plainForms.findSome? fun form => all? form token with
  | none => failure
  | some v =>
    if (all? date token).isSome then
      match ← get with
      | ' ' :: c :: _ =>
        if isPlain c then
          char ' '
          let token ← takeWhile1 isPlain
          if (all? timeOffset token).isSome then pure .moment else failure
        else pure v
      | _ => pure v
    else pure v

end Retrace.Toml
