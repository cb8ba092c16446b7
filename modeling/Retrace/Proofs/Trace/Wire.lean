import Retrace.Proofs.Result
import Retrace.Trace.Wire

/-!
# Wire — events read back from their bytes

* `Event.Fits` — the ids fit into three bytes, the length of a table into four;
* `Event.bytes`, `Event.encode_eq` — the bytes of an event that fits, and an error for any other;
* `Event.read_bytes` — an event is read back from its bytes, whatever follows them;
* `Trace.walkFrom_bytes` — a walk passes over the bytes of events one by one;
* `Trace.decode_bytes` — a trace of events that fit is read back;
* `Trace.encodeAll_readable` — and so is each of its events, wherever its bytes stand.
-/

namespace Retrace

/-! ## Numbers -/

theorem ofBigEndian_bigEndian32 {n : Nat} (h : n < 0x100000000) :
    ofBigEndian (bigEndian32 n) = n := by
  simp only [bigEndian32, ofBigEndian, List.foldl_cons, List.foldl_nil, UInt8.toNat_ofNat']
  omega

theorem length_bigEndian32 (n : Nat) : (bigEndian32 n).length = 4 := rfl

theorem firstBytes?_append (front rest : List UInt8) :
    Event.firstBytes? front.length (front ++ rest) = some front := by
  induction front with
  | nil =>
    rw [List.length_nil, Event.firstBytes?]
  | cons b front ih =>
    rw [List.length_cons, List.cons_append, Event.firstBytes?, ih]
    rfl

namespace Event

theorem take_append (front rest : List UInt8) :
    take front.length (front ++ rest) = .ok front := by
  rw [take, firstBytes?_append]

/-! ## Events that fit -/

/-- The event can be written. -/
def Fits : Event → Prop
  | setModule id => id ≤ maxOperand
  | table payload => payload.length < 0x100000000
  | call function => function ≤ maxOperand
  | block id => id ≤ maxOperand
  | ret => True

/-- The bytes of an event, if it fits. -/
def bytes : Event → List UInt8
  | setModule id => operandBytes 0 id
  | table payload => 0xC1 :: bigEndian32 payload.length ++ payload
  | call function => operandBytes 1 function
  | block id => operandBytes 2 id
  | ret => [0xC0]

theorem checkOperand_ok {id : Nat} (h : id ≤ maxOperand) : checkOperand id = .ok () :=
  if_neg (Nat.not_lt.2 h)

theorem checkOperand_error {id : Nat} (h : maxOperand < id) :
    checkOperand id = .error (.valueTooLarge id) := if_pos h

theorem encode_eq {e : Event} (h : e.Fits) : e.encode = .ok e.bytes := by
  cases e with
  | setModule id => rw [encode, checkOperand_ok h, Except.ok_bind]; rfl
  | table payload => exact if_pos h
  | call function => rw [encode, checkOperand_ok h, Except.ok_bind]; rfl
  | block id => rw [encode, checkOperand_ok h, Except.ok_bind]; rfl
  | ret => rfl

/-! ## Reading back -/

/-- The low bits of the first byte are the id, or they say how many bytes the id takes up. -/
theorem operandBytes_cases (kind : Nat) {id : Nat} (hid : id ≤ maxOperand) :
    (id < 61 ∧ operandBytes kind id = [UInt8.ofNat (64 * kind + id)]) ∨
      ∃ tail : List UInt8,
        operandBytes kind id = UInt8.ofNat (64 * kind + (60 + tail.length)) :: tail ∧
        0 < tail.length ∧ tail.length ≤ 3 ∧ ofLittleEndian tail = id := by
  unfold maxOperand at hid
  unfold operandBytes
  by_cases hsmall : id < 61
  · exact .inl ⟨hsmall, if_pos hsmall⟩
  · refine .inr ?_
    rw [if_neg hsmall]
    -- one byte more, two or three, and `hid` leaves no larger ids
    by_cases hone : id < 0x100
    · rw [if_pos hone]
      refine ⟨[_], rfl, Nat.succ_pos _, by simp, ?_⟩
      simp only [ofLittleEndian, List.foldr_cons, List.foldr_nil, UInt8.toNat_ofNat']
      omega
    · rw [if_neg hone]
      by_cases htwo : id < 0x10000
      · rw [if_pos htwo]
        refine ⟨[_, _], rfl, Nat.succ_pos _, by simp, ?_⟩
        simp only [ofLittleEndian, List.foldr_cons, List.foldr_nil, UInt8.toNat_ofNat']
        omega
      · rw [if_neg htwo]
        refine ⟨[_, _, _], rfl, Nat.succ_pos _, by simp, ?_⟩
        simp only [ofLittleEndian, List.foldr_cons, List.foldr_nil, UInt8.toNat_ofNat']
        omega

/-- The first byte has the kind in its high bits, and the id is read from the low bits and the
bytes after it. -/
theorem readOperand_operandBytes {kind id : Nat} (hkind : kind < 3) (hid : id ≤ maxOperand) :
    ∃ b tail, operandBytes kind id = b :: tail ∧ b.toNat / 64 = kind ∧
      ∀ rest, readOperand (b.toNat % 64) (tail ++ rest) = .ok (id, tail.length) := by
  have hbyte : ∀ low, low < 64 → (UInt8.ofNat (64 * kind + low)).toNat = 64 * kind + low := by
    intro low hlow
    rw [UInt8.toNat_ofNat']
    exact Nat.mod_eq_of_lt (by omega)
  rcases operandBytes_cases kind hid with ⟨hsmall, hbytes⟩ | ⟨tail, hbytes, hpos, hthree, hvalue⟩
  -- the id stands in the low bits of the first byte
  · refine ⟨_, [], hbytes, ?_, ?_⟩
    · rw [hbyte id (by omega)]
      omega
    · intro rest
      have hlow : (64 * kind + id) % 64 = id := by omega
      rw [hbyte id (by omega), hlow, readOperand, if_pos hsmall]
      rfl
  -- the low bits say how many bytes follow
  · refine ⟨_, tail, hbytes, ?_, ?_⟩
    · rw [hbyte (60 + tail.length) (by omega)]
      omega
    · intro rest
      have hlow : (64 * kind + (60 + tail.length)) % 64 = 60 + tail.length := by omega
      have hwidth : 60 + tail.length - 60 = tail.length := by omega
      rw [hbyte (60 + tail.length) (by omega), hlow, readOperand, if_neg (by omega), hwidth,
        take_append, Except.ok_bind, hvalue]
      rfl

/-- An event is read back from its bytes, and nothing after them is touched. -/
theorem read_bytes {e : Event} (h : e.Fits) :
    ∃ b tail, e.bytes = b :: tail ∧ ∀ rest, read b (tail ++ rest) = .ok (e, tail.length) := by
  cases e with
  | setModule id =>
    rcases readOperand_operandBytes (by decide : 0 < 3) h with ⟨b, tail, hbytes, hkind, hread⟩
    refine ⟨b, tail, hbytes, ?_⟩
    intro rest
    simp only [read, hkind, hread rest, Except.ok_bind]
    rfl
  | call function =>
    rcases readOperand_operandBytes (by decide : 1 < 3) h with ⟨b, tail, hbytes, hkind, hread⟩
    refine ⟨b, tail, hbytes, ?_⟩
    intro rest
    simp only [read, hkind, hread rest, Except.ok_bind]
    rfl
  | block id =>
    rcases readOperand_operandBytes (by decide : 2 < 3) h with ⟨b, tail, hbytes, hkind, hread⟩
    refine ⟨b, tail, hbytes, ?_⟩
    intro rest
    simp only [read, hkind, hread rest, Except.ok_bind]
    rfl
  | ret => exact ⟨0xC0, [], rfl, fun rest => rfl⟩
  | table payload =>
    refine ⟨0xC1, bigEndian32 payload.length ++ payload, rfl, ?_⟩
    intro rest
    -- the length comes first, in four bytes, and it says where the payload ends
    have hlength : take 4 (bigEndian32 payload.length ++ payload ++ rest)
        = .ok (bigEndian32 payload.length) := by
      rw [List.append_assoc]
      exact take_append (bigEndian32 payload.length) (payload ++ rest)
    have hdrop : (bigEndian32 payload.length ++ payload ++ rest).drop 4 = payload ++ rest := rfl
    have hwidth : (bigEndian32 payload.length ++ payload).length = 4 + payload.length := by
      rw [List.length_append, length_bigEndian32]
    have hkind : (0xC1 : UInt8).toNat / 64 = 3 := rfl
    have hlow : (0xC1 : UInt8).toNat % 64 = 1 := rfl
    rw [read, hkind, hlow, hwidth]
    simp only [hlength, Except.ok_bind, ofBigEndian_bigEndian32 h, hdrop, take_append]
    rfl

/-- An event is read back from where its bytes stand, whatever comes before and after them. -/
theorem decodeAt_bytes {e : Event} (h : e.Fits) (before after : List UInt8) :
    decodeAt (before ++ e.bytes ++ after) before.length
      = .ok (some (e, before.length + e.bytes.length)) := by
  rcases read_bytes h with ⟨b, tail, hbytes, hread⟩
  have hdrop : (before ++ e.bytes ++ after).drop before.length = b :: (tail ++ after) := by
    rw [List.append_assoc, List.drop_left, hbytes, List.cons_append]
  have hnext : before.length + 1 + tail.length = before.length + e.bytes.length := by
    rw [hbytes, List.length_cons]
    omega
  rw [decodeAt, hdrop]
  simp only [hread, hnext]

theorem encodeAll_eq {events : List Event} (h : ∀ e ∈ events, e.Fits) :
    encodeAll events = .ok (events.flatMap bytes) := by
  induction events with
  | nil => rfl
  | cons e rest ih =>
    have hrest := ih fun f hf => h f (List.mem_cons_of_mem e hf)
    rw [encodeAll, encode_eq (h e List.mem_cons_self), Except.ok_bind, hrest, Except.ok_bind]
    rfl

end Event

/-! ## Traces -/

namespace Trace

open Event (Fits)

/-- The steps that a walk takes over the bytes of events, from an offset on. -/
def stepsFrom (offset : Nat) : List Event → List Step
  | [] => []
  | e :: rest =>
    ⟨offset, offset + e.bytes.length, e⟩ :: stepsFrom (offset + e.bytes.length) rest

theorem map_event_stepsFrom (offset : Nat) (events : List Event) :
    (stepsFrom offset events).map (·.event) = events := by
  induction events generalizing offset with
  | nil => rfl
  | cons e rest ih => rw [stepsFrom, List.map_cons, ih]

/-- The bytes of the event before are passed over. -/
theorem walkFrom_drop (offset skip : Nat) (bytes : List UInt8) :
    walkFrom offset skip bytes = walkFrom offset 0 (bytes.drop skip) := by
  induction bytes generalizing skip with
  | nil => rw [List.drop_nil, walkFrom, walkFrom]
  | cons b rest ih =>
    cases skip with
    | zero => rfl
    | succ skip =>
      rw [walkFrom, List.drop_succ_cons]
      exact ih skip

theorem walkFrom_skip (offset : Nat) (front rest : List UInt8) :
    walkFrom offset front.length (front ++ rest) = walkFrom offset 0 rest := by
  rw [walkFrom_drop, List.drop_left]

/-- A walk reads the event at its offset and goes on from the offset after it. -/
theorem walkFrom_eq_decodeAt (bytes : List UInt8) (offset : Nat) :
    walkFrom offset 0 (bytes.drop offset) =
      match Event.decodeAt bytes offset with
      | .error e => ⟨[], some e⟩
      | .ok none => ⟨[], none⟩
      | .ok (some (e, next)) =>
        ⟨⟨offset, next, e⟩ :: (walkFrom next 0 (bytes.drop next)).steps,
          (walkFrom next 0 (bytes.drop next)).error?⟩ := by
  rw [Event.decodeAt]
  cases hdrop : bytes.drop offset with
  | nil => rfl
  | cons b rest =>
    have hrest : rest = bytes.drop (offset + 1) := by
      rw [← List.tail_drop, hdrop, List.tail_cons]
    rw [walkFrom]
    cases hread : Event.read b rest with
    | error fault => simp only [hread]
    | ok result =>
      have hskip : walkFrom (offset + 1 + result.2) result.2 rest
          = walkFrom (offset + 1 + result.2) 0 (bytes.drop (offset + 1 + result.2)) := by
        rw [walkFrom_drop, hrest, List.drop_drop]
      simp only [hread, hskip]

theorem lt_of_decodeAt {bytes : List UInt8} {offset next : Nat} {e : Event}
    (h : Event.decodeAt bytes offset = .ok (some (e, next))) :
    offset < bytes.length ∧ offset < next := by
  rw [Event.decodeAt] at h
  cases hdrop : bytes.drop offset with
  | nil =>
    rw [hdrop] at h
    cases h
  | cons b rest =>
    rw [hdrop] at h
    have hlength : offset < bytes.length := by
      refine Nat.not_le.1 fun hge => ?_
      rw [List.drop_of_length_le hge] at hdrop
      cases hdrop
    cases hread : Event.read b rest with
    | error fault =>
      simp only [hread] at h
      cases h
    | ok result =>
      simp only [hread] at h
      cases h
      exact ⟨hlength, by omega⟩

theorem decodeAt_stopFrom (bytes : List UInt8) (offset : Nat) :
    Event.decodeAt bytes
        (((walkFrom offset 0 (bytes.drop offset)).steps.getLast?.map (·.next)).getD offset)
      = match (walkFrom offset 0 (bytes.drop offset)).error? with
        | some e => .error e
        | none => .ok none := by
  -- on what is left from `offset` on
  induction hleft : bytes.length - offset using Nat.strongRecOn generalizing offset with
  | ind left ih =>
    have hwalk := walkFrom_eq_decodeAt bytes offset
    cases hread : Event.decodeAt bytes offset with
    | error e =>
      simp only [hread] at hwalk
      simp only [hwalk]
      exact hread
    | ok result =>
      cases result with
      | none =>
        simp only [hread] at hwalk
        simp only [hwalk]
        exact hread
      | some result =>
        rcases result with ⟨e, next⟩
        have hlt := lt_of_decodeAt hread
        have hrest := ih (bytes.length - next) (by omega) next rfl
        simp only [hread] at hwalk
        simp only [hwalk, ← hrest, List.getLast?_cons, Option.map_some, Option.getD_some]
        cases (walkFrom next 0 (bytes.drop next)).steps.getLast? with
        | none => rfl
        | some last => rfl

/-- What stops a walk is found at the offset where it ends. -/
theorem decodeAt_stop (bytes : List UInt8) :
    Event.decodeAt bytes (walk bytes).stop =
      match (walk bytes).error? with
      | some e => .error e
      | none => .ok none :=
  decodeAt_stopFrom bytes 0

theorem exists_decode_iff {bytes : List UInt8} :
    (∃ events, decode bytes = .ok events) ↔ (walk bytes).error? = none := by
  cases h : (walk bytes).error? <;> simp [decode, h]

theorem decode_eq_ok {bytes : List UInt8} {events : List Event} (h : decode bytes = .ok events) :
    (walk bytes).error? = none ∧ (walk bytes).steps.map (·.event) = events := by
  rw [decode] at h
  cases herror : (walk bytes).error? with
  | none =>
    simp only [herror, Except.ok.injEq] at h
    exact ⟨rfl, h⟩
  | some e =>
    simp only [herror] at h
    cases h

/-- A walk passes over the bytes of events one by one. -/
theorem walkFrom_bytes {events : List Event} (h : ∀ e ∈ events, e.Fits) (offset : Nat)
    (rest : List UInt8) :
    walkFrom offset 0 (events.flatMap Event.bytes ++ rest)
      = ⟨stepsFrom offset events
            ++ (walkFrom (offset + (events.flatMap Event.bytes).length) 0 rest).steps,
          (walkFrom (offset + (events.flatMap Event.bytes).length) 0 rest).error?⟩ := by
  induction events generalizing offset with
  | nil => rfl
  | cons e events ih =>
    -- the first byte gives the event, the bytes after it are passed over
    rcases Event.read_bytes (h e List.mem_cons_self) with ⟨b, tail, hbytes, hread⟩
    have hlength : offset + e.bytes.length = offset + 1 + tail.length := by
      rw [hbytes, List.length_cons]
      omega
    have hoffset : offset + 1 + tail.length + (events.flatMap Event.bytes).length
        = offset + ((e :: events).flatMap Event.bytes).length := by
      rw [List.flatMap_cons, List.length_append, ← hlength]
      omega
    have hrest := ih (fun f hf => h f (List.mem_cons_of_mem e hf)) (offset + 1 + tail.length)
    rw [hoffset] at hrest
    have happend : (e :: events).flatMap Event.bytes ++ rest
        = b :: (tail ++ (events.flatMap Event.bytes ++ rest)) := by
      rw [List.flatMap_cons, hbytes]
      simp
    rw [happend, walkFrom, stepsFrom, hlength]
    simp only [hread, walkFrom_skip, hrest, List.cons_append]

theorem walk_bytes {events : List Event} (h : ∀ e ∈ events, e.Fits) :
    walk (events.flatMap Event.bytes) = ⟨stepsFrom 0 events, none⟩ := by
  have hwalk := walkFrom_bytes h 0 []
  rw [List.append_nil] at hwalk
  rw [walk, hwalk, walkFrom, List.append_nil]

/-- A trace of events that fit is read back. -/
theorem decode_bytes {events : List Event} (h : ∀ e ∈ events, e.Fits) :
    decode (events.flatMap Event.bytes) = .ok events := by
  rw [decode, walk_bytes h]
  simp only [map_event_stepsFrom]

/-- Events that fit can be written one after another, and the trace is read back as these events.
The bytes of each can be read in any surroundings: what stands before them does not matter, and what
follows is neither needed nor touched. -/
theorem encodeAll_readable :
    (∀ events : List Event, (∀ e ∈ events, e.Fits) →
        ∃ bytes, Event.encodeAll events = .ok bytes ∧ decode bytes = .ok events) ∧
      ∀ e : Event, e.Fits →
        ∃ bytes, e.encode = .ok bytes ∧
          ∀ before after : List UInt8,
            Event.decodeAt (before ++ bytes ++ after) before.length
              = .ok (some (e, before.length + bytes.length)) := by
  constructor
  · intro events hevents
    exact ⟨events.flatMap Event.bytes, Event.encodeAll_eq hevents, decode_bytes hevents⟩
  · intro e he
    exact ⟨e.bytes, Event.encode_eq he, Event.decodeAt_bytes he⟩

/-- The ids on both sides of a change of width, and a payload that looks like a call, a return and
the start of a table. -/
theorem encodeAll_readable_widths :
    (∃ bytes,
        Event.encodeAll [.setModule 60, .call 61, .table [0x41, 0xC0, 0xC1], .block 255, .block 256,
          .call 65535, .call 65536, .ret, .block 0xFFFFFF] = .ok bytes ∧
        decode bytes = .ok [.setModule 60, .call 61, .table [0x41, 0xC0, 0xC1], .block 255,
          .block 256, .call 65535, .call 65536, .ret, .block 0xFFFFFF]) ∧
      Event.decodeAt ([0xC1] ++ [0x7F, 0, 0, 1] ++ [0x7F]) 1 = .ok (some (.call 65536, 5)) := by
  have hfits : ∀ e ∈ [Event.setModule 60, .call 61, .table [0x41, 0xC0, 0xC1], .block 255,
      .block 256, .call 65535, .call 65536, .ret, .block 0xFFFFFF], e.Fits := by
    simp [Fits, Event.maxOperand]
  refine ⟨encodeAll_readable.1 _ hfits, ?_⟩
  rcases encodeAll_readable.2 (.call 65536) (by decide : 65536 ≤ Event.maxOperand) with
    ⟨bytes, hbytes, hread⟩
  have hcall : (Event.call 65536).encode = .ok [0x7F, 0, 0, 1] := rfl
  cases hcall.symm.trans hbytes
  exact hread [0xC1] [0x7F]

end Trace

end Retrace
