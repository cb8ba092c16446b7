import Retrace.SourceMap.Vlq
import Retrace.Proofs.Base64

/-!
# Vlq — a number read back from the digits it is written in

* `Vlq.unfold_fold` — folding loses nothing of a number that fits into a word with its sign;
* `Vlq.read_encode` — reading takes exactly the digits that were written;
* `Vlq.digit?_of_mem_encode` — nothing but digits is written, so no separator is.
-/

namespace Retrace

namespace Vlq

open Base64 (digitChar digit? digit?_digitChar)

theorem digits_lt {n d : Nat} (h : d ∈ digits n) : d < 64 := by
  fun_induction digits n with
  | case1 n hn =>
    rw [List.mem_singleton] at h
    omega
  | case2 n hn ih =>
    rcases List.mem_cons.1 h with rfl | hrest
    · omega
    · exact ih hrest

/-! ## Folding -/

theorem fold_eq {v : Int} (h : v.natAbs < 0x8000000000000000) :
    fold v = if v < 0 then 2 * v.natAbs + 1 else 2 * v.natAbs := by
  unfold fold
  split <;> exact Nat.mod_eq_of_lt (by omega)

theorem fold_lt (v : Int) : fold v < 0x10000000000000000 := Nat.mod_lt _ (by decide)

theorem unfold_fold {v : Int} (h : v.natAbs < 0x8000000000000000) : unfold (fold v) = v := by
  rw [fold_eq h]
  unfold unfold
  by_cases hv : v < 0
  · rw [if_pos hv, if_neg (by omega), if_neg (by omega)]
    omega
  · rw [if_neg hv, if_pos (by omega)]
    omega

/-! ## Reading what was written -/

theorem place_succ (i : Nat) : place (i + 1) = place i * 32 := rfl

/-- The thirteenth digit is the last that a number of one word needs. -/
theorem index_le {folded n i : Nat} (hfits : folded + n * place i < 0x10000000000000000)
    (hn : 0 < n ∨ i = 0) : i ≤ 12 := by
  rcases hn with hpos | hzero
  · by_cases hi : i ≤ 12
    · exact hi
    · have hlast : place 13 = 0x20000000000000000 := rfl
      have hplace : place 13 ≤ place i := Nat.pow_le_pow_right (by decide) (by omega)
      have hmul : place i ≤ n * place i := Nat.le_mul_of_pos_left _ hpos
      omega
  · omega

/-- The digits from the `i`-th on add what they stand for to what came before. -/
theorem readFrom_digits (n : Nat) {i folded : Nat}
    (hfits : folded + n * place i < 0x10000000000000000) (hn : 0 < n ∨ i = 0)
    (rest : List UInt8) :
    readFrom i folded (Utf8.encode ((digits n).map digitChar) ++ rest)
      = .ok (unfold (folded + n * place i), rest) := by
  have hi : ¬ 12 < i := Nat.not_lt.2 (index_le hfits hn)
  -- along the digits: `folded` is what the first `i` of them amount to
  induction n using digits.induct generalizing i folded with
  | case1 n hlt =>
    obtain ⟨b, hbyte, hdigit⟩ := digit?_digitChar (d := n) (by omega)
    have hbytes : Utf8.encode ((digits n).map digitChar) ++ rest = b :: rest := by
      rw [digits, if_pos hlt]
      simp [Utf8.encode, hbyte]
    have hsum : (folded + n % 32 * place i) % 0x10000000000000000 = folded + n * place i := by
      rw [Nat.mod_eq_of_lt hlt, Nat.mod_eq_of_lt hfits]
    rw [hbytes, readFrom]
    simp only [hdigit, if_neg hi, hsum, if_pos hlt]
  | case2 n hlt ih =>
    obtain ⟨b, hbyte, hdigit⟩ := digit?_digitChar (d := n % 32 + 32) (by omega)
    have hbytes : Utf8.encode ((digits n).map digitChar) ++ rest
        = b :: (Utf8.encode ((digits (n / 32)).map digitChar) ++ rest) := by
      rw [digits, if_neg hlt]
      simp [Utf8.encode, hbyte]
    -- the digit and those after it count as much as the number itself
    have hdiv : n % 32 * place i + n / 32 * place (i + 1) = n * place i := by
      calc n % 32 * place i + n / 32 * place (i + 1)
          = (n % 32 + n / 32 * 32) * place i := by
            rw [place_succ, ← Nat.mul_assoc, Nat.mul_right_comm, Nat.add_mul]
        _ = n * place i := by rw [Nat.add_comm, Nat.mul_comm (n / 32), Nat.div_add_mod]
    have hlow : (n % 32 + 32) % 32 = n % 32 := by omega
    have hsum : (folded + (n % 32 + 32) % 32 * place i) % 0x10000000000000000
        = folded + n % 32 * place i := by
      rw [hlow]
      exact Nat.mod_eq_of_lt (by omega)
    have hfits' : folded + n % 32 * place i + n / 32 * place (i + 1) < 0x10000000000000000 := by
      omega
    have hpos : 0 < n / 32 := by omega
    rw [hbytes, readFrom]
    simp only [hdigit, if_neg hi, hsum]
    rw [if_neg (by omega), ih hfits' (.inl hpos) (Nat.not_lt.2 (index_le hfits' (.inl hpos))),
      Nat.add_assoc, hdiv]

/-- A number that fits into a word with its sign is read back, and nothing after it is touched. -/
theorem read_encode {v : Int} (h : v.natAbs < 0x8000000000000000) (rest : List UInt8) :
    read (Utf8.encode (encode v) ++ rest) = .ok (v, rest) := by
  have hplace : 0 + fold v * place 0 = fold v := by
    have hone : place 0 = 1 := rfl
    rw [hone, Nat.mul_one, Nat.zero_add]
  have hfits : 0 + fold v * place 0 < 0x10000000000000000 := by
    rw [hplace]
    exact fold_lt v
  rw [read, encode, readFrom_digits (fold v) hfits (.inr rfl), hplace, unfold_fold h]

/-- Only digits are written. -/
theorem digit?_of_mem_encode {v : Int} {b : UInt8} (h : b ∈ Utf8.encode (encode v)) :
    (digit? b).isSome := by
  rcases List.mem_flatMap.1 h with ⟨c, hc, hb⟩
  rcases List.mem_map.1 hc with ⟨d, hd, rfl⟩
  rcases digit?_digitChar (digits_lt hd) with ⟨b', hbyte, hdigit⟩
  rw [hbyte, List.mem_singleton] at hb
  rw [hb, hdigit]
  rfl

end Vlq

end Retrace
