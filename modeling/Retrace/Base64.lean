/-!
# Base 64

* `Base64.digitChar`, `Base64.digit?` — the 64 digits and their values;
* `Base64.encode`, `Base64.decode?` — three bytes as four digits, the last group padded.

Reading accepts what writing produces and nothing else: the padding has to be there, and the bits
that padding leaves unused have to be zero.
-/

namespace Retrace.Base64

/-! ## Digits -/

/-- The 64 digits in the order of their values. -/
def alphabet : List Char :=
  "ABCDEFGHIJKLMNOPQRSTUVWXYZabcdefghijklmnopqrstuvwxyz0123456789+/".toList

/-- The character of a digit value below 64. -/
def digitChar (d : Nat) : Char := alphabet.getD d 'A'

/-- The value of a byte that is a digit. -/
def digit? (b : UInt8) : Option Nat :=
  let n := b.toNat
  if 65 ≤ n ∧ n ≤ 90 then some (n - 65)
  else if 97 ≤ n ∧ n ≤ 122 then some (n - 97 + 26)
  else if 48 ≤ n ∧ n ≤ 57 then some (n - 48 + 52)
  else if n = 43 then some 62
  else if n = 47 then some 63
  else none

/-! ## Groups -/

def encode : List UInt8 → List Char
  | a :: b :: c :: rest =>
    let n := a.toNat * 65536 + b.toNat * 256 + c.toNat
    digitChar (n / 262144) :: digitChar (n / 4096 % 64) :: digitChar (n / 64 % 64) ::
      digitChar (n % 64) :: encode rest
  | [a, b] =>
    let n := a.toNat * 1024 + b.toNat * 4
    [digitChar (n / 4096), digitChar (n / 64 % 64), digitChar (n % 64), '=']
  | [a] =>
    let n := a.toNat * 16
    [digitChar (n / 64), digitChar (n % 64), '=', '=']
  | [] => []

/-- The byte that the padding consists of. -/
def pad : UInt8 := 61

/-- The bytes of a last group that has `=` in it. -/
def decodeLast? (a b c d : UInt8) : Option (List UInt8) := do
  if d ≠ pad then none
  let x ← digit? a
  let y ← digit? b
  if c = pad then
    if y % 16 = 0 then some [UInt8.ofNat (x * 4 + y / 16)] else none
  else
    let z ← digit? c
    if z % 4 = 0 then
      some [UInt8.ofNat (x * 4 + y / 16), UInt8.ofNat (y % 16 * 16 + z / 4)]
    else none

/-- The bytes of a group of four digits. -/
def decodeGroup? (a b c d : UInt8) : Option (List UInt8) := do
  let x ← digit? a
  let y ← digit? b
  let z ← digit? c
  let w ← digit? d
  some [UInt8.ofNat (x * 4 + y / 16), UInt8.ofNat (y % 16 * 16 + z / 4),
    UInt8.ofNat (z % 4 * 64 + w)]

def decode? : List UInt8 → Option (List UInt8)
  | [] => some []
  | [a, b, c, d] => (decodeGroup? a b c d).or (decodeLast? a b c d)
  | a :: b :: c :: d :: rest => do
    let front ← decodeGroup? a b c d
    let back ← decode? rest
    some (front ++ back)
  | _ => none

end Retrace.Base64
