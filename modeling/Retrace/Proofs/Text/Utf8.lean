import Retrace.Text.Utf8

/-!
# Utf8 — reading back the bytes of a text

* `Utf8.marks_encodeChar` — the bytes of a character complete it, and leave nothing open;
* `Utf8.decode?_encode` — the bytes of a text are read as that text;
* `Utf8.splitOn_encode` — a text and its bytes are cut alike at an ASCII character.
-/

namespace Retrace.Utf8

/-! ## First bytes -/

theorem toNat_ofNat {n : Nat} (h : n < 256) : (UInt8.ofNat n).toNat = n := by
  rw [UInt8.toNat_ofNat']
  exact Nat.mod_eq_of_lt h

theorem lead_one {n : Nat} (h : n < 0x80) : lead (UInt8.ofNat n) = some (.inl (Char.ofNat n)) := by
  unfold lead
  simp only [toNat_ofNat (show n < 256 by omega)]
  exact if_pos h

theorem lead_two {n : Nat} (hlow : 0xC2 ≤ n) (hhigh : n < 0xE0) :
    lead (UInt8.ofNat n) = some (.inr ⟨1, 0x80, 0xBF, n - 0xC0⟩) := by
  unfold lead
  simp only [toNat_ofNat (show n < 256 by omega)]
  rw [if_neg (by omega), if_neg (by omega), if_pos hhigh]

/-- The second byte of three is bounded where the first one alone would let in an overlong form or a
surrogate. -/
theorem lead_three {n : Nat} (hlow : 0xE0 ≤ n) (hhigh : n < 0xF0) :
    lead (UInt8.ofNat n)
      = some (.inr ⟨2, if n = 0xE0 then 0xA0 else 0x80, if n = 0xED then 0x9F else 0xBF,
          n - 0xE0⟩) := by
  unfold lead
  simp only [toNat_ofNat (show n < 256 by omega)]
  rw [if_neg (by omega), if_neg (by omega), if_neg (by omega)]
  by_cases hfirst : n = 0xE0
  · subst hfirst
    rfl
  · by_cases hsurrogate : n = 0xED
    · subst hsurrogate
      rfl
    · rw [if_neg hfirst, if_neg hsurrogate, if_pos hhigh, if_neg hfirst, if_neg hsurrogate]

/-- The second byte of four is bounded where the first one alone would let in an overlong form or a
value past the last code point. -/
theorem lead_four {n : Nat} (hlow : 0xF0 ≤ n) (hhigh : n ≤ 0xF4) :
    lead (UInt8.ofNat n)
      = some (.inr ⟨3, if n = 0xF0 then 0x90 else 0x80, if n = 0xF4 then 0x8F else 0xBF,
          n - 0xF0⟩) := by
  unfold lead
  simp only [toNat_ofNat (show n < 256 by omega)]
  rw [if_neg (by omega), if_neg (by omega), if_neg (by omega), if_neg (by omega),
    if_neg (by omega), if_neg (by omega)]
  by_cases hfirst : n = 0xF0
  · subst hfirst
    rfl
  · by_cases hlast : n = 0xF4
    · subst hlast
      rfl
    · rw [if_neg hfirst, if_pos (by omega), if_neg hfirst, if_neg hlast]

/-! ## Reading on -/

theorem marks_done {b : UInt8} {c : Char} (h : lead b = some (.inl c)) (rest : List UInt8) :
    marks none (b :: rest) = some c :: marks none rest := by
  rw [marks]
  simp only [step, begin, h]
  rfl

theorem marks_open {b : UInt8} {p : Pending} (h : lead b = some (.inr p)) (rest : List UInt8) :
    marks none (b :: rest) = marks (some p) rest := by
  rw [marks]
  simp only [step, begin, h]
  rfl

theorem marks_last {low high value n : Nat} (hlow : low ≤ n) (hhigh : n ≤ high) (hn : n < 256)
    (rest : List UInt8) :
    marks (some ⟨1, low, high, value⟩) (UInt8.ofNat n :: rest)
      = some (Char.ofNat (value * 64 + (n - 0x80))) :: marks none rest := by
  rw [marks]
  simp only [step, toNat_ofNat hn, if_pos (And.intro hlow hhigh)]
  rfl

theorem marks_more (k : Nat) {low high value n : Nat} (hlow : low ≤ n) (hhigh : n ≤ high)
    (hn : n < 256) (rest : List UInt8) :
    marks (some ⟨k + 2, low, high, value⟩) (UInt8.ofNat n :: rest)
      = marks (some ⟨k + 1, 0x80, 0xBF, value * 64 + (n - 0x80)⟩) rest := by
  rw [marks]
  simp only [step, toNat_ofNat hn, if_pos (And.intro hlow hhigh)]
  rfl

/-- The bytes of a character complete it. -/
theorem marks_encodeChar (c : Char) (rest : List UInt8) :
    marks none (String.utf8EncodeChar c ++ rest) = some c :: marks none rest := by
  have hc : Char.ofNat c.val.toNat = c := Char.ofNat_toNat c
  have hvalid : c.val.toNat < 0xD800 ∨ 0xDFFF < c.val.toNat ∧ c.val.toNat < 0x110000 := c.valid
  unfold String.utf8EncodeChar
  generalize c.val.toNat = v at hc hvalid
  simp only
  -- by the number of bytes: the lead has the high bits, every other byte six more
  by_cases hone : v ≤ 0x7F
  · rw [if_pos hone]
    rw [List.cons_append, List.nil_append, marks_done (lead_one (by omega)), hc]
  · rw [if_neg hone]
    by_cases htwo : v ≤ 0x7FF
    · have hvalue : (v / 64 % 32 + 0xC0 - 0xC0) * 64 + (v % 64 + 0x80 - 0x80) = v := by omega
      rw [if_pos htwo, List.cons_append, List.cons_append, List.nil_append,
        marks_open (lead_two (by omega) (by omega)),
        marks_last (by omega) (by omega) (by omega), hvalue, hc]
    · rw [if_neg htwo]
      by_cases hthree : v ≤ 0xFFFF
      · have hvalue : ((v / 4096 % 16 + 0xE0 - 0xE0) * 64 + (v / 64 % 64 + 0x80 - 0x80)) * 64
            + (v % 64 + 0x80 - 0x80) = v := by omega
        rw [if_pos hthree, List.cons_append, List.cons_append, List.cons_append, List.nil_append,
          marks_open (lead_three (by omega) (by omega)),
          marks_more 0 (by split <;> omega) (by split <;> omega) (by omega),
          marks_last (by omega) (by omega) (by omega), hvalue, hc]
      · have hvalue : (((v / 262144 % 8 + 0xF0 - 0xF0) * 64 + (v / 4096 % 64 + 0x80 - 0x80)) * 64
            + (v / 64 % 64 + 0x80 - 0x80)) * 64 + (v % 64 + 0x80 - 0x80) = v := by omega
        rw [if_neg hthree, List.cons_append, List.cons_append, List.cons_append, List.cons_append,
          List.nil_append, marks_open (lead_four (by omega) (by omega)),
          marks_more 1 (by split <;> omega) (by split <;> omega) (by omega),
          marks_more 0 (by omega) (by omega) (by omega),
          marks_last (by omega) (by omega) (by omega), hvalue, hc]

theorem marks_encode (text : List Char) : marks none (encode text) = text.map some := by
  induction text with
  | nil => rfl
  | cons c rest ih =>
    have hbytes : encode (c :: rest) = String.utf8EncodeChar c ++ encode rest := rfl
    rw [hbytes, marks_encodeChar, ih, List.map_cons]

/-- The bytes of a text are read as that text. -/
theorem decode?_encode (text : List Char) : decode? (encode text) = some text := by
  rw [decode?, marks_encode]
  induction text with
  | nil => rfl
  | cons c rest ih =>
    rw [List.map_cons, List.mapM_cons, ih]
    rfl

/-! ## Cutting at an ASCII character -/

theorem encode_eq_nil {text : List Char} : encode text = [] ↔ text = [] := by
  cases text with
  | nil => exact ⟨fun _ => rfl, fun _ => rfl⟩
  | cons c rest =>
    have hc : String.utf8EncodeChar c ≠ [] := by
      refine List.ne_nil_of_length_pos ?_
      rw [String.length_utf8EncodeChar]
      exact Char.utf8Size_pos c
    rw [encode, List.flatMap_cons, List.append_eq_nil_iff]
    exact ⟨fun h => absurd h.1 hc, fun h => by cases h⟩

/-- The byte of an ASCII character is part of no other character. -/
theorem not_mem_encodeChar {c c' : Char} (hc : c.val.toNat < 0x80) (hne : c' ≠ c) :
    UInt8.ofNat c.val.toNat ∉ String.utf8EncodeChar c' := by
  have hval : c.val.toNat ≠ c'.val.toNat :=
    fun h => hne (Char.ext (UInt32.toNat_inj.1 h.symm))
  have hbyte : ∀ n < 256, UInt8.ofNat c.val.toNat = UInt8.ofNat n → c.val.toNat = n := by
    intro n hn h
    have htoNat := congrArg UInt8.toNat h
    rwa [toNat_ofNat (by omega), toNat_ofNat hn] at htoNat
  intro hmem
  unfold String.utf8EncodeChar at hmem
  generalize c'.val.toNat = v at hval hmem
  simp only at hmem
  -- a character of its own, or else all bytes are past the ASCII range
  split at hmem
  · exact hval (hbyte v (by omega) (List.mem_singleton.1 hmem))
  · have hhigh : ∀ n, 0x80 ≤ n → n < 256 → UInt8.ofNat c.val.toNat ≠ UInt8.ofNat n :=
      fun n hlow hn h => absurd (hbyte n hn h) (by omega)
    split at hmem
    · simp only [List.mem_cons, List.not_mem_nil, or_false] at hmem
      rcases hmem with hmem | hmem <;> exact hhigh _ (by omega) (by omega) hmem
    · split at hmem
      · simp only [List.mem_cons, List.not_mem_nil, or_false] at hmem
        rcases hmem with hmem | hmem | hmem <;> exact hhigh _ (by omega) (by omega) hmem
      · simp only [List.mem_cons, List.not_mem_nil, or_false] at hmem
        rcases hmem with hmem | hmem | hmem | hmem <;> exact hhigh _ (by omega) (by omega) hmem

theorem encodeChar_ascii {c : Char} (hc : c.val.toNat < 0x80) :
    String.utf8EncodeChar c = [UInt8.ofNat c.val.toNat] := by
  unfold String.utf8EncodeChar
  exact if_pos (by omega)

theorem not_mem_encode {c : Char} (hc : c.val.toNat < 0x80) {text : List Char} (hmem : c ∉ text) :
    UInt8.ofNat c.val.toNat ∉ encode text := by
  intro hbyte
  rcases List.mem_flatMap.1 hbyte with ⟨c', hc', hin⟩
  exact not_mem_encodeChar hc (fun heq => hmem (heq ▸ hc')) hin

/-- Cutting a text at an ASCII character cuts its bytes at the byte of that character. -/
theorem splitOn_encode {c : Char} (hc : c.val.toNat < 0x80) (text : List Char) :
    (encode text).splitOn (UInt8.ofNat c.val.toNat) = (text.splitOn c).map encode := by
  by_cases hmem : c ∈ text
  · rcases List.eq_append_cons_of_mem hmem with ⟨piece, rest, rfl, hpiece⟩
    have hbytes : encode (piece ++ c :: rest)
        = encode piece ++ UInt8.ofNat c.val.toNat :: encode rest := by
      rw [encode, List.flatMap_append, List.flatMap_cons, encodeChar_ascii hc]
      rfl
    rw [hbytes, List.splitOn_append_cons_self_of_not_mem (not_mem_encode hc hpiece),
      List.splitOn_append_cons_self_of_not_mem hpiece, splitOn_encode hc rest, List.map_cons]
  · rw [List.splitOn_eq_singleton (not_mem_encode hc hmem), List.splitOn_eq_singleton hmem]
    rfl
termination_by text.length

end Retrace.Utf8
