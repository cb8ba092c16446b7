/-!
# Numerals of JSON

`Numeral.ofBytes?` reads a numeral as JSON spells it: no plus sign, no leading zeros, and at least
one digit on either side of a point.  A numeral keeps how it was written, because what a reader may
do with it depends on that:

* `Numeral.nat?` — the number, if it is written as bare digits;
* `Numeral.Huge` — the value is too large for a binary floating-point number of 64 bits;
* `Numeral.Overflows` — a quick computation of that number leaves its range.

The last two differ only next to the largest number.  The quick computation takes in the digits that
fit a word of 64 bits and multiplies that by a power of ten; it drops the other digits, and it
rounds both factors and their product.
-/

namespace Retrace

structure Numeral where
  negative : Bool
  whole : List Nat
  fraction : List Nat
  exponent : Option Int
deriving DecidableEq, Repr, Inhabited

namespace Numeral

def digit? (b : UInt8) : Option Nat :=
  if 48 ≤ b.toNat ∧ b.toNat ≤ 57 then some (b.toNat - 48) else none

/-- The digits in front, and what follows them. -/
def digits : List UInt8 → List Nat × List UInt8
  | [] => ([], [])
  | b :: rest =>
    match digit? b with
    | none => ([], b :: rest)
    | some d => let (ds, after) := digits rest; (d :: ds, after)

/-- The number that digits stand for, the most significant first. -/
def value (ds : List Nat) : Nat := ds.foldl (fun n d => 10 * n + d) 0

/-- Digits that start with a zero only if that is all of them. -/
def whole? (bytes : List UInt8) : Option (List Nat × List UInt8) :=
  match digits bytes with
  | ([], _) => none
  | (0 :: _ :: _, _) => none
  | (ds, rest) => some (ds, rest)

def fraction? : List UInt8 → Option (List Nat × List UInt8)
  | 46 :: rest =>
    match digits rest with
    | ([], _) => none
    | (ds, after) => some (ds, after)
  | rest => some ([], rest)

/-- The digits of an exponent after its sign, with nothing behind them. -/
def exponentDigits? (bytes : List UInt8) : Option Int :=
  match digits bytes with
  | (d :: ds, []) => some (value (d :: ds))
  | _ => none

def exponent? : List UInt8 → Option (Option Int)
  | [] => some none
  | b :: rest =>
    if b = 101 ∨ b = 69 then
      match rest with
      | 43 :: ds => (exponentDigits? ds).map some
      | 45 :: ds => (exponentDigits? ds).map fun n => some (-n)
      | ds => (exponentDigits? ds).map some
    else none

def unsigned? (negative : Bool) (bytes : List UInt8) : Option Numeral := do
  let (whole, rest) ← whole? bytes
  let (fraction, rest) ← fraction? rest
  let exponent ← exponent? rest
  pure ⟨negative, whole, fraction, exponent⟩

def ofBytes? : List UInt8 → Option Numeral
  | 45 :: rest => unsigned? true rest
  | bytes => unsigned? false bytes

/-! ## Reading a numeral -/

/-- The number, if it is written as bare digits and lies below `bound`. -/
def nat? (bound : Nat) (n : Numeral) : Option Nat :=
  if n.negative = false ∧ n.fraction = [] ∧ n.exponent = none ∧ value n.whole < bound then
    some (value n.whole)
  else none

/-- Rounds to no finite number of 53 binary digits and an exponent of 11.  Only where the decimal
magnitude does not settle it is the value itself computed. -/
def Huge (n : Numeral) : Prop :=
  let ds := (n.whole ++ n.fraction).dropWhile (· = 0)
  let scale := n.exponent.getD 0 - n.fraction.length
  -- the value lies between the powers of ten of `magnitude - 1` and `magnitude`
  let magnitude : Int := ds.length + scale
  ds ≠ [] ∧ 300 < magnitude ∧
    (310 < magnitude ∨
      (1 <<< 1024 - 1 <<< 970) * Nat.pow 10 (-scale).toNat ≤ value ds * Nat.pow 10 scale.toNat)

instance (n : Numeral) : Decidable n.Huge := by
  unfold Huge
  infer_instance

/-! ### The quick computation -/

/-- Appends digits to a number while it fits a word of 64 bits: the number, and how many digits are
left over. -/
def absorb (n : Nat) : List Nat → Nat × Nat
  | [] => (n, 0)
  | d :: ds =>
    if 10 * n + d < 0x10000000000000000 then absorb (10 * n + d) ds else (n, ds.length + 1)

/-- The number as a word and a power of ten.  A digit of the whole part that is dropped still moves
the point, so it counts in the exponent; one of the fraction does not. -/
def approximation (n : Numeral) : Nat × Int :=
  let (word, dropped) := absorb 0 n.whole
  let (word, ignored) := absorb word n.fraction
  (word, n.exponent.getD 0 + dropped - (n.fraction.length - ignored))

/-- The nearest number of 53 binary digits, and of two the even one. -/
def roundDigits (n : Nat) : Nat :=
  let unit := 1 <<< (n.log2 + 1 - 53)
  let (quotient, rest) := (n / unit, n % unit)
  if 2 * rest < unit ∨ (2 * rest = unit ∧ quotient % 2 = 0) then quotient * unit
  else (quotient + 1) * unit

/-- The word times the power of ten is no finite number.  The powers of ten that are finite end with
the exponent 308, and a negative exponent only makes the word smaller. -/
def Overflows (n : Numeral) : Prop :=
  let (word, scale) := n.approximation
  word ≠ 0 ∧ 0 ≤ scale ∧
    (308 < scale ∨
      1 <<< 1024 ≤ roundDigits (roundDigits word * roundDigits (Nat.pow 10 scale.toNat)))

instance (n : Numeral) : Decidable n.Overflows := by
  unfold Overflows
  infer_instance

end Numeral

end Retrace
