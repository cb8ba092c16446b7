/-!
# Numbers of machine words

The numbers of a machine word end at a limit, and a sum that would pass it breaks the program off.

* `Width` — exact numbers, and those of a word;
* `Width.plus?`, `minus?` — the sum and the difference of two numbers, where there is one.
-/

namespace Retrace

/-- How wide numbers may get. -/
inductive Width where
  | exact
  | word32
  | word64
deriving DecidableEq, Repr

namespace Width

/-- A number is not too wide. -/
def Admits : Width → Nat → Prop
  | exact, _ => True
  | word32, n => n < 0x100000000
  | word64, n => n < 0x10000000000000000

instance : (k : Width) → (n : Nat) → Decidable (k.Admits n)
  | exact, _ => inferInstanceAs (Decidable True)
  | word32, n => inferInstanceAs (Decidable (n < 0x100000000))
  | word64, n => inferInstanceAs (Decidable (n < 0x10000000000000000))

/-- The sum of two numbers, unless it is too wide. -/
def plus? (k : Width) (a b : Nat) : Option Nat := if k.Admits (a + b) then some (a + b) else none

variable {k : Width} {a b c : Nat}

theorem admits_zero (k : Width) : k.Admits 0 := by
  cases k with
  | exact => trivial
  | word32 | word64 => decide

theorem Admits.mono (h : k.Admits b) (hle : a ≤ b) : k.Admits a := by
  cases k with
  | exact => trivial
  | word32 | word64 => exact Nat.lt_of_le_of_lt hle h

theorem plus?_eq (h : k.Admits (a + b)) : k.plus? a b = some (a + b) := if_pos h

theorem plus?_eq_none (h : ¬ k.Admits (a + b)) : k.plus? a b = none := if_neg h

theorem plus?_eq_some : k.plus? a b = some c ↔ k.Admits (a + b) ∧ c = a + b := by
  by_cases h : k.Admits (a + b)
  · rw [plus?_eq h, Option.some.injEq, and_iff_right h]
    exact eq_comm
  · simp [plus?_eq_none h, h]

end Width

/-- The difference of two numbers, if there is one. -/
def minus? (a b : Nat) : Option Nat := if b ≤ a then some (a - b) else none

theorem minus?_eq {a b : Nat} (h : b ≤ a) : minus? a b = some (a - b) := if_pos h

theorem minus?_eq_some {a b c : Nat} : minus? a b = some c ↔ b ≤ a ∧ c = a - b := by
  by_cases h : b ≤ a
  · rw [minus?_eq h, Option.some.injEq, and_iff_right h]
    exact eq_comm
  · simp [minus?, h]

end Retrace
