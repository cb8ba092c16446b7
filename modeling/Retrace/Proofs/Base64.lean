import Retrace.Base64
import Retrace.Proofs.Text.Utf8
import Retrace.Text.Blank

/-!
# Base64 — bytes read back from their digits

* `Base64.digit?_digitChar` — the byte of a digit character has the value of the digit;
* `Base64.decode?_encode` — bytes are read back from the digits that they are written as;
* `Base64.isSpace_of_mem_encode` — no white space is written.
-/

namespace Retrace.Base64

/-! ## Digits -/

/-- A digit takes one byte, which has the value of the digit. -/
theorem digit?_digitChar {d : Nat} (h : d < 64) :
    ∃ b, String.utf8EncodeChar (digitChar d) = [b] ∧ digit? b = some d := by
  have hall : ∀ d : Fin 64,
      (String.utf8EncodeChar (digitChar d)).map digit? = [some d.val] := by decide +kernel
  have hd := hall ⟨d, h⟩
  cases hbytes : String.utf8EncodeChar (digitChar d) with
  | nil => simp [hbytes] at hd
  | cons b rest =>
    simp only [hbytes, List.map_cons, List.cons.injEq, List.map_eq_nil_iff] at hd
    exact ⟨b, by rw [hd.2], hd.1⟩

theorem isSpace_digitChar (d : Nat) : Blank.isSpace (digitChar d) = false := by
  have hall : (alphabet.all fun c => !Blank.isSpace c) = true := by decide +kernel
  have hdigit : digitChar d ∈ alphabet := by
    rw [digitChar, List.getD_eq_getElem?_getD]
    cases hd : alphabet[d]? with
    | none => exact List.mem_cons_self
    | some c => exact List.mem_of_getElem? hd
  simpa using List.all_eq_true.1 hall _ hdigit

/-- Nothing is written but digits and padding. -/
theorem isSpace_of_mem_encode {bytes : List UInt8} {c : Char} (h : c ∈ encode bytes) :
    Blank.isSpace c = false := by
  have hpad : Blank.isSpace '=' = false := rfl
  fun_induction encode bytes with
  | case1 a b e rest n ih =>
    simp only [List.mem_cons] at h
    rcases h with rfl | rfl | rfl | rfl | hrest
    · exact isSpace_digitChar _
    · exact isSpace_digitChar _
    · exact isSpace_digitChar _
    · exact isSpace_digitChar _
    · exact ih hrest
  | case2 a b n =>
    simp only [List.mem_cons, List.not_mem_nil, or_false] at h
    rcases h with rfl | rfl | rfl | rfl
    · exact isSpace_digitChar _
    · exact isSpace_digitChar _
    · exact isSpace_digitChar _
    · exact hpad
  | case3 a n =>
    simp only [List.mem_cons, List.not_mem_nil, or_false] at h
    rcases h with rfl | rfl | rfl | rfl
    · exact isSpace_digitChar _
    · exact isSpace_digitChar _
    · exact hpad
    · exact hpad
  | case4 => cases h

/-! ## Groups -/

theorem ofNat_eq {b : UInt8} {n : Nat} (h : n = b.toNat) : UInt8.ofNat n = b := by
  rw [h, UInt8.ofNat_toNat]

/-- The byte of the padding character. -/
theorem encodeChar_pad : String.utf8EncodeChar '=' = [pad] := rfl

/-- The bytes of a group of characters, each of which takes one. -/
theorem encode_group {x y z w : Char} {p q r s : UInt8} (hx : String.utf8EncodeChar x = [p])
    (hy : String.utf8EncodeChar y = [q]) (hz : String.utf8EncodeChar z = [r])
    (hw : String.utf8EncodeChar w = [s]) (rest : List Char) :
    Utf8.encode (x :: y :: z :: w :: rest) = p :: q :: r :: s :: Utf8.encode rest := by
  simp only [Utf8.encode, List.flatMap_cons, hx, hy, hz, hw]
  rfl

/-- A group of four digits in front is three bytes in front. -/
theorem decode?_group {p q r s : UInt8} {rest front back : List UInt8}
    (hgroup : decodeGroup? p q r s = some front) (hrest : decode? rest = some back) :
    decode? (p :: q :: r :: s :: rest) = some (front ++ back) := by
  cases rest with
  | nil =>
    cases hrest
    rw [decode?, hgroup, List.append_nil]
    rfl
  | cons t rest =>
    rw [decode?.eq_def]
    simp only [hgroup, hrest]
    rfl

/-- Padding is no digit, so a padded group is read as the last one. -/
theorem decode?_padded (p q r : UInt8) : decode? [p, q, r, pad] = decodeLast? p q r pad := by
  have hpad : digit? pad = none := rfl
  have hgroup : decodeGroup? p q r pad = none := by
    rw [decodeGroup?, hpad]
    cases digit? p <;> cases digit? q <;> cases digit? r <;> rfl
  rw [decode?, hgroup, Option.none_or]

/-- Bytes are read back from the digits that they are written as. -/
theorem decode?_encode (bytes : List UInt8) :
    decode? (Utf8.encode (encode bytes)) = some bytes := by
  fun_induction encode bytes with
  | case1 a b c rest n ih =>
    have ha := a.toNat_lt
    have hb := b.toNat_lt
    have hc := c.toNat_lt
    rcases digit?_digitChar (d := n / 262144) (by omega) with ⟨p, hp, hdp⟩
    rcases digit?_digitChar (d := n / 4096 % 64) (by omega) with ⟨q, hq, hdq⟩
    rcases digit?_digitChar (d := n / 64 % 64) (by omega) with ⟨r, hr, hdr⟩
    rcases digit?_digitChar (d := n % 64) (by omega) with ⟨s, hs, hds⟩
    have hgroup : decodeGroup? p q r s = some [a, b, c] := by
      simp only [decodeGroup?, hdp, hdq, hdr, hds, Option.bind_eq_bind, Option.bind_some]
      rw [ofNat_eq (b := a) (by omega), ofNat_eq (b := b) (by omega), ofNat_eq (b := c) (by omega)]
    rw [encode_group hp hq hr hs, decode?_group hgroup ih]
    rfl
  | case2 a b n =>
    have ha := a.toNat_lt
    have hb := b.toNat_lt
    rcases digit?_digitChar (d := n / 4096) (by omega) with ⟨p, hp, hdp⟩
    rcases digit?_digitChar (d := n / 64 % 64) (by omega) with ⟨q, hq, hdq⟩
    rcases digit?_digitChar (d := n % 64) (by omega) with ⟨r, hr, hdr⟩
    have hmore : r ≠ pad := by
      rintro rfl
      cases hdr
    rw [encode_group hp hq hr encodeChar_pad, Utf8.encode, List.flatMap_nil, decode?_padded]
    simp only [decodeLast?, hdp, hdq, hdr, ne_eq, not_true_eq_false, if_false, if_neg hmore,
      Option.bind_eq_bind, Option.bind_some]
    rw [if_pos (by omega), ofNat_eq (b := a) (by omega), ofNat_eq (b := b) (by omega)]
  | case3 a n =>
    have ha := a.toNat_lt
    rcases digit?_digitChar (d := n / 64) (by omega) with ⟨p, hp, hdp⟩
    rcases digit?_digitChar (d := n % 64) (by omega) with ⟨q, hq, hdq⟩
    rw [encode_group hp hq encodeChar_pad encodeChar_pad, Utf8.encode, List.flatMap_nil,
      decode?_padded]
    simp only [decodeLast?, hdp, hdq, ne_eq, not_true_eq_false, if_false, if_true,
      Option.bind_eq_bind, Option.bind_some]
    rw [if_pos (by omega), ofNat_eq (b := a) (by omega)]
  | case4 => rfl

end Retrace.Base64
