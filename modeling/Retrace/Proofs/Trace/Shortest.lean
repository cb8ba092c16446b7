import Mathlib.Algebra.Group.Nat.Defs
import Retrace.Proofs.Trace.Prefix

/-!
# Shortest — events written again from the bytes they were read from

An id can be read from more bytes than it takes to write it.  Nothing else has more than one form.

* `Shortens` — bytes that are fewer than others, or the same;
* `Event.shortens_operandBytes` — an id is written in the fewest bytes from which it can be read;
* `Event.shortens_read` — and so is an event;
* `Trace.Walks.shortens` — hence a trace that is written again gets no longer;
* `Trace.encodeAll_shortest` — and stays as it is unless it gets shorter.
-/

namespace Retrace

/-- Bytes that are no more than others, and the same if as many. -/
structure Shortens (own form : List UInt8) : Prop where
  length_le : own.length ≤ form.length
  eq : own.length = form.length → own = form

theorem Shortens.refl (form : List UInt8) : Shortens form form := ⟨Nat.le_refl _, fun _ => rfl⟩

theorem Shortens.append {own own' form form' : List UInt8} (h : Shortens own form)
    (h' : Shortens own' form') : Shortens (own ++ own') (form ++ form') := by
  have hle := h.length_le
  have hle' := h'.length_le
  constructor
  · rw [List.length_append, List.length_append]
    omega
  · rw [List.length_append, List.length_append]
    intro hlength
    -- as many in all are as many in either part
    rw [h.eq (by omega), h'.eq (by omega)]

/-! ## Numbers -/

theorem ofLittleEndian_cons (b : UInt8) (bytes : List UInt8) :
    ofLittleEndian (b :: bytes) = b.toNat + 256 * ofLittleEndian bytes := rfl

theorem ofLittleEndian_lt (bytes : List UInt8) : ofLittleEndian bytes < 256 ^ bytes.length := by
  induction bytes with
  | nil => exact Nat.one_pos
  | cons b bytes ih =>
    have hb := b.toNat_lt
    rw [ofLittleEndian_cons, List.length_cons, Nat.pow_succ]
    omega

/-- As many bytes stand for the same number only if they are the same. -/
theorem eq_of_ofLittleEndian_eq {bytes bytes' : List UInt8} (hlength : bytes.length = bytes'.length)
    (h : ofLittleEndian bytes = ofLittleEndian bytes') : bytes = bytes' := by
  induction bytes generalizing bytes' with
  | nil => exact (List.length_eq_zero_iff.1 hlength.symm).symm
  | cons b bytes ih =>
    cases bytes' with
    | nil => cases hlength
    | cons b' bytes' =>
      have hb := b.toNat_lt
      have hb' := b'.toNat_lt
      rw [ofLittleEndian_cons, ofLittleEndian_cons] at h
      rw [UInt8.toNat_inj.1 (show b.toNat = b'.toNat by omega),
        ih (Nat.succ.inj hlength) (by omega)]

/-- Four bytes are those of the number that they stand for. -/
theorem bigEndian32_ofBigEndian {four : List UInt8} (h : four.length = 4) :
    ofBigEndian four < 0x100000000 ∧ bigEndian32 (ofBigEndian four) = four := by
  obtain ⟨a, b, c, d, rfl⟩ := List.length_eq_four.1 h
  have ha := a.toNat_lt
  have hb := b.toNat_lt
  have hc := c.toNat_lt
  have hd := d.toNat_lt
  simp only [ofBigEndian, bigEndian32, List.foldl_cons, List.foldl_nil]
  refine ⟨by omega, ?_⟩
  simp only [List.cons.injEq, and_true, ← UInt8.toNat_inj, UInt8.toNat_ofNat']
  omega

namespace Event

/-! ## Events -/

/-- The bytes after the first one are as few as the id allows. -/
theorem length_operandBytes_le (kind : Nat) {id width : Nat} (hid : id < 256 ^ width)
    (hpos : 0 < width) (hthree : width ≤ 3) : (operandBytes kind id).length ≤ 1 + width := by
  have hone : width = 1 → id < 0x100 := by rintro rfl; exact hid
  have htwo : width = 2 → id < 0x10000 := by rintro rfl; exact hid
  unfold operandBytes
  split
  · rw [List.length_singleton]
    omega
  · split
    · rw [List.length_cons, List.length_singleton]
      omega
    · split
      · simp only [List.length_cons, List.length_nil]
        omega
      · simp only [List.length_cons, List.length_nil]
        omega

/-- An id is in the low bits of the first byte, or in the bytes after it. -/
theorem readOperand_eq_ok {low id width : Nat} {bytes : List UInt8}
    (h : readOperand low bytes = .ok (id, width)) :
    (low < 61 ∧ id = low ∧ width = 0) ∨
      (60 < low ∧ width = low - 60 ∧ (bytes.take width).length = width ∧
        ofLittleEndian (bytes.take width) = id) := by
  unfold readOperand at h
  by_cases hlow : low < 61
  · rw [if_pos hlow] at h
    cases h
    exact .inl ⟨hlow, rfl, rfl⟩
  · rw [if_neg hlow] at h
    rcases Except.bind_eq_ok.1 h with ⟨own, hown, h⟩
    cases h
    rcases take_eq_ok hown with ⟨hlength, rest, rfl⟩
    have htake : (own ++ rest).take (low - 60) = own := by rw [← hlength, List.take_left]
    exact .inr ⟨Nat.not_lt.1 hlow, rfl, by rw [htake, hlength], by rw [htake]⟩

/-- An id is written in the fewest bytes from which it can be read, and in these only. -/
theorem shortens_operandBytes {b : UInt8} {kind id width : Nat} {bytes : List UInt8}
    (hkind : b.toNat / 64 = kind) (h : readOperand (b.toNat % 64) bytes = .ok (id, width)) :
    id ≤ maxOperand ∧ Shortens (operandBytes kind id) (b :: bytes.take width) := by
  have hb := b.toNat_lt
  rcases readOperand_eq_ok h with ⟨hlow, rfl, rfl⟩ | ⟨hlow, hwidth, hlength, hvalue⟩
  · have hfirst : UInt8.ofNat (64 * kind + b.toNat % 64) = b := by
      rw [← hkind, Nat.div_add_mod, UInt8.ofNat_toNat]
    refine ⟨Nat.le_trans hlow.le (by decide), ?_⟩
    rw [operandBytes, if_pos hlow, hfirst]
    exact .refl _
  · have hlt := ofLittleEndian_lt (bytes.take width)
    rw [hlength, hvalue] at hlt
    have hid : id ≤ maxOperand := by
      have hmax : 256 ^ width ≤ 256 ^ 3 := Nat.pow_le_pow_right (by decide) (by omega)
      exact Nat.le_of_lt_succ (Nat.lt_of_lt_of_le hlt hmax)
    have hle := length_operandBytes_le kind hlt (by omega) (by omega)
    refine ⟨hid, ⟨by rw [List.length_cons, hlength]; omega, ?_⟩⟩
    rw [List.length_cons, hlength]
    intro hsame
    rcases operandBytes_cases kind hid with ⟨-, hown⟩ | ⟨tail, hown, -, -, htail⟩
    · rw [hown, List.length_singleton] at hsame
      omega
    · -- as many bytes after the first one, so the first one announces as many
      rw [hown, List.length_cons] at hsame
      have hrest : tail = bytes.take width :=
        eq_of_ofLittleEndian_eq (by omega) (htail.trans hvalue.symm)
      have hfirst : UInt8.ofNat (64 * kind + (60 + tail.length)) = b := by
        rw [← UInt8.toNat_inj, UInt8.toNat_ofNat']
        omega
      rw [hown, hfirst, hrest]

/-- An event that can be read can be written, in no more bytes than it was read from, and in others
only if they are fewer. -/
theorem shortens_read {b : UInt8} {bytes : List UInt8} {e : Event} {width : Nat}
    (h : read b bytes = .ok (e, width)) :
    e.Fits ∧ Shortens e.bytes (b :: bytes.take width) := by
  cases reading_of_read h with
  | setModule hkind hid => exact shortens_operandBytes hkind hid
  | call hkind hid => exact shortens_operandBytes hkind hid
  | block hkind hid => exact shortens_operandBytes hkind hid
  -- a return and a table have one form each
  | ret hkind hlow =>
    have hbyte : b = 0xC0 := UInt8.toNat_inj.1 (show b.toNat = 192 by omega)
    exact ⟨trivial, hbyte ▸ .refl _⟩
  | @table four payload rest hkind hlow hfour hlength =>
    have hbyte : b = 0xC1 := UInt8.toNat_inj.1 (show b.toNat = 193 by omega)
    rcases bigEndian32_ofBigEndian hfour with ⟨hlt, hwritten⟩
    have hform : (table payload).bytes
        = b :: (four ++ (payload ++ rest)).take (4 + ofBigEndian four) := by
      rw [bytes, hlength, hwritten, ← List.append_assoc, ← hlength, ← hfour,
        ← List.length_append, List.take_left, hbyte]
      rfl
    refine ⟨?_, hform ▸ .refl _⟩
    change payload.length < 0x100000000
    rw [hlength]
    exact hlt

theorem shortens_decodeAt {bytes : List UInt8} {offset next : Nat} {e : Event}
    (h : decodeAt bytes offset = .ok (some (e, next))) :
    e.Fits ∧ offset + e.bytes.length ≤ next ∧
      (offset + e.bytes.length = next → e.bytes = (bytes.drop offset).take e.bytes.length) := by
  rw [decodeAt] at h
  cases hdrop : bytes.drop offset with
  | nil =>
    rw [hdrop] at h
    cases h
  | cons b rest =>
    rw [hdrop] at h
    cases hread : read b rest with
    | error fault =>
      simp only [hread] at h
      cases h
    | ok result =>
      rcases result with ⟨e', width⟩
      simp only [hread] at h
      cases h
      rcases shortens_read hread with ⟨hfits, hshortens⟩
      rcases exists_takes hread with ⟨own, more, hrest, hlength, -⟩
      have hform : (b :: rest.take width).length = 1 + width := by
        rw [List.length_cons, hrest, ← hlength, List.take_left, Nat.add_comm]
      have hle := hshortens.length_le
      rw [hform] at hle
      refine ⟨hfits, by omega, ?_⟩
      intro hsame
      have hbytes : e.bytes.length = 1 + width := by omega
      rw [hbytes, Nat.add_comm, List.take_succ_cons]
      exact hshortens.eq (hbytes.trans hform.symm)

end Event

/-! ## Traces -/

namespace Trace

variable {offset : Nat} {bytes : List UInt8} {w : Walk}

/-- The events of a walk that is not stopped can be written, and are no more bytes then. -/
theorem Walks.shortens (h : Walks offset bytes w) (hall : w.error? = none) :
    (∀ e ∈ w.steps.map (·.event), e.Fits) ∧
      Shortens ((w.steps.map (·.event)).flatMap Event.bytes) bytes := by
  induction h with
  | done offset =>
    refine ⟨?_, .refl []⟩
    intro e he
    cases he
  | stuck offset h => cases hall
  | @step offset b own rest e w h hw ih =>
    rcases Event.shortens_read (h.whole []) with ⟨hfits, hfirst⟩
    rw [List.append_nil, List.take_length] at hfirst
    rcases ih hall with ⟨hallFit, hrest⟩
    rw [List.map_cons, List.flatMap_cons]
    exact ⟨List.forall_mem_cons.2 ⟨hfits, hallFit⟩, hfirst.append hrest⟩

/-- The events of a trace that can be read to its end can be written again.  This trace is read as
the same events; it is no longer than the one they come from, and it is the same if it is as long.
Likewise each single event is written in no more bytes than it was read from, wherever these stand,
and in the same bytes if they are as many. -/
theorem encodeAll_shortest :
    (∀ bytes events, decode bytes = .ok events →
        ∃ own, Event.encodeAll events = .ok own ∧ decode own = .ok events ∧
          own.length ≤ bytes.length ∧ (own.length = bytes.length → own = bytes)) ∧
      ∀ bytes offset e next, Event.decodeAt bytes offset = .ok (some (e, next)) →
        ∃ own, e.encode = .ok own ∧ decode own = .ok [e] ∧ offset + own.length ≤ next ∧
          (offset + own.length = next → own = (bytes.drop offset).take own.length) := by
  constructor
  · intro bytes events hdecode
    rcases decode_eq_ok hdecode with ⟨hall, rfl⟩
    rcases (walks_walkFrom 0 bytes).shortens hall with ⟨hfits, hshortens⟩
    exact ⟨_, Event.encodeAll_eq hfits, decode_bytes hfits, hshortens.length_le, hshortens.eq⟩
  · intro bytes offset e next hread
    rcases Event.shortens_decodeAt hread with ⟨hfits, hle, hsame⟩
    have hone : decode ([e].flatMap Event.bytes) = .ok [e] :=
      decode_bytes (List.forall_mem_singleton.2 hfits)
    rw [List.flatMap_singleton] at hone
    exact ⟨e.bytes, Event.encode_eq hfits, hone, hle, hsame⟩

/-- A call and a block whose ids take up more bytes than they need, around a table. -/
def wideIds : List UInt8 := [0x01, 0xC1, 0, 0, 0, 2, 0x7B, 0x7D, 0x7E, 5, 0, 0xBF, 0, 1, 0, 0xC0]

theorem encodeAll_shortest_wideIds :
    Event.encodeAll [.setModule 1, .table [0x7B, 0x7D], .call 5, .block 256, .ret]
        = .ok [0x01, 0xC1, 0, 0, 0, 2, 0x7B, 0x7D, 0x45, 0xBE, 0, 1, 0xC0] ∧
      decode [0x01, 0xC1, 0, 0, 0, 2, 0x7B, 0x7D, 0x45, 0xBE, 0, 1, 0xC0]
        = .ok [.setModule 1, .table [0x7B, 0x7D], .call 5, .block 256, .ret] ∧
      ∃ own, (Event.call 5).encode = .ok own ∧ decode own = .ok [.call 5] ∧
        8 + own.length ≤ 11 := by
  have hdecode : decode wideIds
      = .ok [.setModule 1, .table [0x7B, 0x7D], .call 5, .block 256, .ret] := rfl
  rcases encodeAll_shortest.1 _ _ hdecode with ⟨own, hown, hagain, -, -⟩
  have hbytes : Event.encodeAll [.setModule 1, .table [0x7B, 0x7D], .call 5, .block 256, .ret]
      = .ok [0x01, 0xC1, 0, 0, 0, 2, 0x7B, 0x7D, 0x45, 0xBE, 0, 1, 0xC0] := rfl
  cases hown.symm.trans hbytes
  rcases encodeAll_shortest.2 wideIds 8 (.call 5) 11 rfl with ⟨call, hcall, hone, hle, -⟩
  exact ⟨hbytes, hagain, call, hcall, hone, hle⟩

end Trace

end Retrace
