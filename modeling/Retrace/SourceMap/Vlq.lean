import Retrace.Base64
import Retrace.Error

/-!
# Variable-length quantities in base 64

A signed number is folded into an unsigned one whose lowest bit is the sign, and the folded number
is written in digits of five bits, least significant first; the sixth bit of a digit says that
another one follows.

* `Vlq.encode` — the digits of a number;
* `Vlq.read` — the number at the start of some bytes, and the bytes after it;
* `Vlq.decodeAt` — the number at a place among some bytes, in front of a bound.

Folding and unfolding work on 64-bit words: a number too large for one loses its high bits, and at
most thirteen digits are read.
-/

namespace Retrace.Vlq

open Base64 (digitChar digit?)

/-! ## Writing -/

/-- The sign in the lowest bit, the magnitude above it, cut to a word. -/
def fold (v : Int) : Nat :=
  (if v < 0 then 2 * v.natAbs + 1 else 2 * v.natAbs) % 0x10000000000000000

def digits (n : Nat) : List Nat :=
  if n < 32 then [n] else (n % 32 + 32) :: digits (n / 32)

def encode (v : Int) : List Char := (digits (fold v)).map digitChar

/-! ## Reading -/

/-- What the digit of index `i` counts. -/
def place (i : Nat) : Nat := Nat.pow 32 i

/-- Minus zero stands for the least 32-bit number. -/
def unfold (n : Nat) : Int :=
  if n % 2 = 0 then (n / 2 : Nat)
  else if n / 2 = 0 then -0x80000000
  else -((n / 2 : Nat) : Int)

/-- Reads on after `i` digits that amount to `folded`.  The error is the place of the byte that
cannot be read, counted from the first digit. -/
def readFrom (i folded : Nat) : List UInt8 → Except Nat (Int × List UInt8)
  | [] => .error i
  | b :: rest =>
    match digit? b with
    | none => .error i
    | some d =>
      -- the thirteenth digit is the last that reaches into a word
      if 12 < i then .error i
      else
        let folded := (folded + d % 32 * place i) % 0x10000000000000000
        if d < 32 then .ok (unfold folded, rest) else readFrom (i + 1) folded rest

/-- The number at the start of `bytes`, and the bytes after it. -/
def read (bytes : List UInt8) : Except Nat (Int × List UInt8) := readFrom 0 0 bytes

theorem length_lt_of_readFrom {i folded : Nat} {bytes rest : List UInt8} {v : Int}
    (h : readFrom i folded bytes = .ok (v, rest)) : rest.length < bytes.length := by
  fun_induction readFrom i folded bytes with
  | case1 => cases h
  | case2 => cases h
  | case3 => cases h
  | case4 => cases h; simp
  | case5 i folded b bytes d hd hi folded' hlast ih =>
    have := ih h
    simp only [List.length_cons]
    omega

/-- Reading takes at least one byte. -/
theorem length_lt_of_read {bytes rest : List UInt8} {v : Int}
    (h : read bytes = .ok (v, rest)) : rest.length < bytes.length := length_lt_of_readFrom h

/-! ## Reading in place

A cursor goes through the bytes in front of a bound.  The digits are shifted into a word, each by
five bits more than the one before it, and what is shifted out of the word is lost. -/

/-- Reads on at the cursor `pos`, where the digits so far amount to `folded`, the next one counts
from bit `shift` on, and so many bytes are left in front of the bound.  Also gives the cursor: after
the last digit, or at the byte that cannot be read. -/
def decodeFrom (bytes : List UInt8) (folded : UInt64) (shift pos : Nat) :
    Nat → Except Error Int × Nat
  | 0 => (.error (.invalidVlq pos), pos)
  | room + 1 =>
    match bytes[pos]?.bind digit? with
    | none => (.error (.invalidVlq pos), pos)
    | some d =>
      if 60 < shift then (.error (.invalidVlq pos), pos)
      else
        let folded := folded ||| UInt64.ofNat (d % 32) <<< UInt64.ofNat shift
        if d < 32 then (.ok (unfold folded.toNat), pos + 1)
        else decodeFrom bytes folded (shift + 5) (pos + 1) room

/-- The number at `pos`, for which no byte at or past `stop` is read. -/
def decodeAt (bytes : List UInt8) (pos stop : Nat) : Except Error Int × Nat :=
  decodeFrom bytes 0 0 pos (stop - pos)

end Retrace.Vlq
