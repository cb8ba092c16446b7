import Retrace.Json.Numeral
import Retrace.Json.Value
import Retrace.Text.Utf8

/-!
# Numeral — reading back the digits of a number

* `Numeral.decimal` — the decimal digits of a number, the most significant first;
* `Numeral.ofBytes?_digits` — the text of a number is a numeral of exactly these digits;
* `Numeral.nat?_ofNat` — and that numeral stands for the number.
-/

namespace Retrace

namespace Numeral

/-- The decimal digits of a number. -/
def decimal (n : Nat) : List Nat := if n < 10 then [n] else decimal (n / 10) ++ [n % 10]

/-- The numeral that a number is written as. -/
def ofNat (n : Nat) : Numeral := ⟨false, decimal n, [], none⟩

theorem decimal_small {n : Nat} (h : n < 10) : decimal n = [n] := by rw [decimal, if_pos h]

theorem decimal_large {n : Nat} (h : ¬ n < 10) : decimal n = decimal (n / 10) ++ [n % 10] := by
  rw [decimal, if_neg h]

theorem lt_of_mem_decimal {n d : Nat} (h : d ∈ decimal n) : d < 10 := by
  induction n using Nat.strongRecOn with
  | ind n ih =>
    by_cases hn : n < 10
    · rw [decimal_small hn, List.mem_singleton] at h
      omega
    · rw [decimal_large hn, List.mem_append, List.mem_singleton] at h
      rcases h with h | rfl
      · exact ih (n / 10) (by omega) h
      · omega

theorem value_decimal (n : Nat) : value (decimal n) = n := by
  induction n using Nat.strongRecOn with
  | ind n ih =>
    by_cases hn : n < 10
    · rw [decimal_small hn]
      simp [value]
    · have hrest : value (decimal (n / 10)) = n / 10 := ih (n / 10) (by omega)
      unfold value at hrest ⊢
      rw [decimal_large hn, List.foldl_append, hrest, List.foldl_cons, List.foldl_nil]
      omega

/-- No number but zero has a zero in front. -/
theorem decimal_eq_cons (n : Nat) : ∃ d ds, decimal n = d :: ds ∧ (d = 0 → ds = []) := by
  induction n using Nat.strongRecOn with
  | ind n ih =>
    by_cases hn : n < 10
    · exact ⟨n, [], decimal_small hn, fun _ => rfl⟩
    · rcases ih (n / 10) (by omega) with ⟨d, ds, hds, hzero⟩
      refine ⟨d, ds ++ [n % 10], by rw [decimal_large hn, hds, List.cons_append], ?_⟩
      intro hd
      have hvalue := value_decimal (n / 10)
      rw [hds, hd, hzero hd] at hvalue
      have hpos : 0 = n / 10 := hvalue
      omega

/-! ## Text -/

theorem digits_eq (n : Nat) : Json.digits n = (decimal n).map Nat.digitChar := by
  rw [Json.digits, toString, instToStringNat, Nat.toList_repr]
  induction n using Nat.strongRecOn with
  | ind n ih =>
    by_cases hn : n < 10
    · rw [decimal_small hn, Nat.toDigits_of_lt_base hn, List.map_singleton]
    · rw [decimal_large hn, Nat.toDigits_of_base_le (by decide) (Nat.not_lt.1 hn),
        ih (n / 10) (by omega), List.map_append, List.map_singleton]

/-- The byte of a digit. -/
def digitByte (d : Nat) : UInt8 := UInt8.ofNat (48 + d)

theorem encodeChar_digitChar {d : Nat} (h : d < 10) :
    String.utf8EncodeChar (Nat.digitChar d) = [digitByte d] := by
  have hall : ∀ d : Fin 10, String.utf8EncodeChar (Nat.digitChar d) = [digitByte d] := by decide
  exact hall ⟨d, h⟩

theorem digit?_digitByte {d : Nat} (h : d < 10) : digit? (digitByte d) = some d := by
  have hall : ∀ d : Fin 10, digit? (digitByte d) = some d.val := by decide
  exact hall ⟨d, h⟩

theorem encode_digits (n : Nat) : Utf8.encode (Json.digits n) = (decimal n).map digitByte := by
  rw [digits_eq]
  have hall : ∀ ds : List Nat, (∀ d ∈ ds, d < 10) →
      Utf8.encode (ds.map Nat.digitChar) = ds.map digitByte := by
    intro ds
    induction ds with
    | nil => exact fun _ => rfl
    | cons d ds ih =>
      intro h
      have hd := encodeChar_digitChar (h d List.mem_cons_self)
      have hrest := ih fun e he => h e (List.mem_cons_of_mem d he)
      unfold Utf8.encode at hrest ⊢
      rw [List.map_cons, List.map_cons, List.flatMap_cons, hd, hrest]
      rfl
  exact hall _ fun d hd => lt_of_mem_decimal hd

/-! ## Reading -/

theorem digits_map_digitByte {ds : List Nat} (h : ∀ d ∈ ds, d < 10) :
    digits (ds.map digitByte) = (ds, []) := by
  induction ds with
  | nil => rfl
  | cons d ds ih =>
    rw [List.map_cons, digits, digit?_digitByte (h d List.mem_cons_self)]
    simp only [ih fun e he => h e (List.mem_cons_of_mem d he)]

/-- The text of a number is a numeral of its digits. -/
theorem ofBytes?_digits (n : Nat) : ofBytes? (Utf8.encode (Json.digits n)) = some (ofNat n) := by
  rcases decimal_eq_cons n with ⟨d, ds, hds, hzero⟩
  have hdigits := digits_map_digitByte fun e (he : e ∈ decimal n) => lt_of_mem_decimal he
  have hwhole : whole? ((decimal n).map digitByte) = some (decimal n, []) := by
    rw [whole?, hdigits, hds]
    rcases d with _ | d
    · rw [hzero rfl]
      rfl
    · rfl
  have hfirst : digitByte d ≠ 45 := by
    have hlt : d < 10 := lt_of_mem_decimal (hds ▸ List.mem_cons_self)
    have hall : ∀ d : Fin 10, digitByte d ≠ 45 := by decide
    exact hall ⟨d, hlt⟩
  have hsign : ofBytes? ((decimal n).map digitByte)
      = unsigned? false ((decimal n).map digitByte) := by
    rw [hds, List.map_cons]
    unfold ofBytes?
    split
    · rename_i heq
      exact absurd (List.cons.inj heq).1 hfirst
    · rfl
  rw [encode_digits, hsign, unsigned?, hwhole]
  rfl

/-- The numeral of a number stands for it. -/
theorem nat?_ofNat {n bound : Nat} (h : n < bound) : (ofNat n).nat? bound = some n := by
  have hvalue : value (ofNat n).whole = n := value_decimal n
  rw [nat?, hvalue]
  exact if_pos ⟨rfl, rfl, rfl, h⟩

end Numeral

end Retrace
