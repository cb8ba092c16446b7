import Mathlib.Data.List.Infix
import Retrace.Proofs.Result
import Retrace.Proofs.Trace.Wire

/-!
# Prefix — a trace that goes on, and a trace that is cut

Whether an event can be read, and which, depends on the bytes that it takes up and on none after
them; with fewer of them it is reported as cut short and never taken for a shorter event.

* `Event.Takes` — a way to read takes up some bytes, all of them and no more;
* `Event.Reading` — the ways in which an event is read;
* `Trace.Walks` — the ways to walk over bytes, from which all that is said about walks is derived;
* `Trace.Walks.append` — a walk takes the same steps when the trace goes on;
* `Trace.Walks.take_clean`, `Trace.Walks.take_cut` — a walk over a trace that is cut, between two
  events or inside one.
-/

namespace Retrace

namespace Event

/-! ## The bytes of an event -/

variable {α β : Type} {reader : List UInt8 → Except TraceFault (α × Nat)} {own : List UInt8} {a : α}

/-- Reading takes up `own`: what follows is not looked at, and less is not enough. -/
structure Takes (reader : List UInt8 → Except TraceFault (α × Nat)) (own : List UInt8) (a : α) :
    Prop where
  whole (rest : List UInt8) : reader (own ++ rest) = .ok (a, own.length)
  cut {n : Nat} (h : n < own.length) :
    ∃ needed remaining, remaining < needed ∧
      reader (own.take n) = .error (.truncated needed remaining)

theorem Takes.map (h : Takes reader own a) (f : α → β) :
    Takes (fun bytes => do let (a, width) ← reader bytes; pure (f a, width)) own (f a) where
  whole rest := by
    rw [h.whole, Except.ok_bind]
    rfl
  cut hn := by
    rcases h.cut hn with ⟨needed, remaining, hlt, hcut⟩
    exact ⟨needed, remaining, hlt, by rw [hcut]; rfl⟩

theorem firstBytes?_eq_none {n : Nat} {bytes : List UInt8} (h : bytes.length < n) :
    firstBytes? n bytes = none := by
  induction bytes generalizing n with
  | nil =>
    obtain ⟨n, rfl⟩ := Nat.exists_eq_succ_of_ne_zero (Nat.ne_zero_of_lt h)
    rfl
  | cons b rest ih =>
    obtain ⟨n, rfl⟩ := Nat.exists_eq_succ_of_ne_zero (Nat.ne_zero_of_lt h)
    rw [firstBytes?, ih (Nat.lt_of_succ_lt_succ h)]
    rfl

theorem take_error {n : Nat} {bytes : List UInt8} (h : bytes.length < n) :
    take n bytes = .error (.truncated n bytes.length) := by
  rw [take, firstBytes?_eq_none h]

theorem take_eq_ok {n : Nat} {bytes front : List UInt8} (h : take n bytes = .ok front) :
    front.length = n ∧ ∃ rest, bytes = front ++ rest := by
  by_cases hn : n ≤ bytes.length
  · have hlength : (bytes.take n).length = n := List.length_take_of_le hn
    have htake := take_append (bytes.take n) (bytes.drop n)
    rw [List.take_append_drop, hlength, h] at htake
    cases htake
    exact ⟨hlength, bytes.drop n, (List.take_append_drop n bytes).symm⟩
  · rw [take_error (Nat.not_le.1 hn)] at h
    cases h

/-- The bytes of an id are as many as the low bits of the first byte say. -/
theorem exists_takes_readOperand {low id width : Nat} {bytes : List UInt8}
    (h : readOperand low bytes = .ok (id, width)) :
    ∃ own rest, bytes = own ++ rest ∧ own.length = width ∧ Takes (readOperand low) own id := by
  unfold readOperand at h
  by_cases hlow : low < 61
  · rw [if_pos hlow] at h
    cases h
    refine ⟨[], bytes, rfl, rfl, ?_, fun hn => absurd hn (Nat.not_lt_zero _)⟩
    intro rest
    rw [readOperand, if_pos hlow]
    rfl
  · rw [if_neg hlow] at h
    rcases Except.bind_eq_ok.1 h with ⟨own, hown, h⟩
    cases h
    rcases take_eq_ok hown with ⟨hlength, rest, rfl⟩
    refine ⟨own, rest, rfl, hlength, ?_, ?_⟩
    · intro rest
      rw [readOperand, if_neg hlow, ← hlength, take_append, Except.ok_bind]
      rfl
    · intro n hn
      have hshort : (own.take n).length < low - 60 := by
        rw [List.length_take_of_le (Nat.le_of_lt hn)]
        omega
      refine ⟨_, _, hshort, ?_⟩
      rw [readOperand, if_neg hlow, take_error hshort]
      rfl

/-- The ways in which an event is read that starts with byte `b`. -/
inductive Reading (b : UInt8) : List UInt8 → Event → Nat → Prop
  | setModule {bytes : List UInt8} {id width : Nat} (hkind : b.toNat / 64 = 0)
      (hid : readOperand (b.toNat % 64) bytes = .ok (id, width)) :
      Reading b bytes (.setModule id) width
  | call {bytes : List UInt8} {id width : Nat} (hkind : b.toNat / 64 = 1)
      (hid : readOperand (b.toNat % 64) bytes = .ok (id, width)) :
      Reading b bytes (.call id) width
  | block {bytes : List UInt8} {id width : Nat} (hkind : b.toNat / 64 = 2)
      (hid : readOperand (b.toNat % 64) bytes = .ok (id, width)) :
      Reading b bytes (.block id) width
  | ret {bytes : List UInt8} (hkind : b.toNat / 64 = 3) (hlow : b.toNat % 64 = 0) :
      Reading b bytes .ret 0
  | table {four payload rest : List UInt8} (hkind : b.toNat / 64 = 3) (hlow : b.toNat % 64 = 1)
      (hfour : four.length = 4) (hlength : payload.length = ofBigEndian four) :
      Reading b (four ++ (payload ++ rest)) (.table payload) (4 + ofBigEndian four)

/-- Whatever is read is read in one of them. -/
theorem reading_of_read {b : UInt8} {bytes : List UInt8} {e : Event} {width : Nat}
    (h : read b bytes = .ok (e, width)) : Reading b bytes e width := by
  have hlt : b.toNat < 256 := b.toNat_lt
  obtain hkind | hkind | hkind | hkind :
      b.toNat / 64 = 0 ∨ b.toNat / 64 = 1 ∨ b.toNat / 64 = 2 ∨ b.toNat / 64 = 3 := by omega
  · rw [read, hkind] at h
    rcases Except.bind_eq_ok.1 h with ⟨⟨id, width'⟩, hid, h⟩
    cases h
    exact .setModule hkind hid
  · rw [read, hkind] at h
    rcases Except.bind_eq_ok.1 h with ⟨⟨id, width'⟩, hid, h⟩
    cases h
    exact .call hkind hid
  · rw [read, hkind] at h
    rcases Except.bind_eq_ok.1 h with ⟨⟨id, width'⟩, hid, h⟩
    cases h
    exact .block hkind hid
  -- a return, a table or neither
  · rw [read, hkind] at h
    by_cases hret : b.toNat % 64 = 0
    · simp only [if_pos hret] at h
      cases h
      exact .ret hkind hret
    · simp only [if_neg hret] at h
      by_cases htable : b.toNat % 64 = 1
      · simp only [if_pos htable] at h
        rcases Except.bind_eq_ok.1 h with ⟨four, htake, h⟩
        rcases Except.bind_eq_ok.1 h with ⟨payload, hpayload, h⟩
        cases h
        rcases take_eq_ok htake with ⟨hfour, rest, rfl⟩
        have hdrop : (four ++ rest).drop 4 = rest := by rw [← hfour, List.drop_left]
        rw [hdrop] at hpayload
        rcases take_eq_ok hpayload with ⟨hlength, rest, rfl⟩
        exact .table hkind htable hfour hlength
      · simp only [if_neg htable] at h
        cases h

/-- An event of a kind that carries an id takes up the bytes of the id. -/
theorem exists_takes_operand {b : UInt8} (event : Nat → Event)
    (hread : read b = fun bytes => do
      let (id, width) ← readOperand (b.toNat % 64) bytes
      pure (event id, width))
    {bytes : List UInt8} {id width : Nat}
    (hid : readOperand (b.toNat % 64) bytes = .ok (id, width)) :
    ∃ own rest, bytes = own ++ rest ∧ own.length = width ∧ Takes (read b) own (event id) := by
  rcases exists_takes_readOperand hid with ⟨own, rest, hbytes, hlength, htakes⟩
  refine ⟨own, rest, hbytes, hlength, ?_⟩
  rw [hread]
  exact htakes.map event

/-- The bytes of a table are four for its length, and then so many. -/
theorem takes_table {b : UInt8} (hkind : b.toNat / 64 = 3) (hlow : b.toNat % 64 = 1)
    {four payload : List UInt8} (hfour : four.length = 4)
    (hlength : payload.length = ofBigEndian four) :
    Takes (read b) (four ++ payload) (table payload) := by
  have hread : ∀ rest, read b (four ++ rest)
      = take (ofBigEndian four) rest >>= fun payload =>
          .ok (table payload, 4 + ofBigEndian four) := by
    intro rest
    have htake : take 4 (four ++ rest) = .ok four := by rw [← hfour, take_append]
    have hdrop : (four ++ rest).drop 4 = rest := by rw [← hfour, List.drop_left]
    rw [read, hkind, hlow]
    simp only [htake, Except.ok_bind, hdrop]
    rfl
  constructor
  · intro rest
    rw [List.append_assoc, hread, ← hlength, take_append, Except.ok_bind, List.length_append, hfour]
  · intro n hn
    rw [List.length_append, hfour] at hn
    -- cut inside the length, or behind it
    by_cases hshort : n < 4
    · have hfront : ((four ++ payload).take n).length < 4 := by
        rw [List.length_take]
        omega
      refine ⟨_, _, hfront, ?_⟩
      rw [read, hkind, hlow]
      simp only [take_error hfront]
      rfl
    · have hpart : (payload.take (n - 4)).length < ofBigEndian four := by
        rw [List.length_take]
        omega
      refine ⟨_, _, hpart, ?_⟩
      rw [List.take_append, List.take_of_length_le (by omega), hfour, hread, take_error hpart]
      rfl

/-- An event that can be read takes up some of the bytes after its first one. -/
theorem exists_takes {b : UInt8} {bytes : List UInt8} {e : Event} {width : Nat}
    (h : read b bytes = .ok (e, width)) :
    ∃ own rest, bytes = own ++ rest ∧ own.length = width ∧ Takes (read b) own e := by
  cases reading_of_read h with
  | setModule hkind hid =>
    exact exists_takes_operand .setModule (by funext; simp only [read, hkind]) hid
  | call hkind hid => exact exists_takes_operand .call (by funext; simp only [read, hkind]) hid
  | block hkind hid => exact exists_takes_operand .block (by funext; simp only [read, hkind]) hid
  | ret hkind hlow =>
    refine ⟨[], bytes, rfl, rfl, ?_, fun hn => absurd hn (Nat.not_lt_zero _)⟩
    intro rest
    rw [read, hkind]
    simp only [if_pos hlow]
    rfl
  | @table four payload rest hkind hlow hfour hlength =>
    refine ⟨four ++ payload, rest, (List.append_assoc _ _ _).symm, ?_,
      takes_table hkind hlow hfour hlength⟩
    rw [List.length_append, hfour, hlength]

end Event

namespace Trace

variable {offset k : Nat} {bytes more : List UInt8} {w : Walk} {steps : List Step} {s : Step}

/-! ## Steps one after another -/

/-- Steps over stretches of bytes that follow one another, none of them empty. -/
def Consecutive (start : Nat) : List Step → Prop
  | [] => True
  | s :: rest => s.offset = start ∧ start < s.next ∧ Consecutive s.next rest

/-- Where steps from an offset on lead to. -/
def endFrom (start : Nat) (steps : List Step) : Nat := (steps.getLast?.map (·.next)).getD start

theorem endFrom_cons (start : Nat) (s : Step) (rest : List Step) :
    endFrom start (s :: rest) = endFrom s.next rest := by
  rw [endFrom, endFrom, List.getLast?_cons]
  cases rest.getLast? <;> rfl

theorem Consecutive.le_offset (h : Consecutive offset steps) (hs : s ∈ steps) :
    offset ≤ s.offset := by
  induction steps generalizing offset with
  | nil => cases hs
  | cons first rest ih =>
    rcases List.mem_cons.1 hs with rfl | hs
    · exact h.1.ge
    · have hrest := ih h.2.2 hs
      have hfirst := h.2.1
      omega

theorem Consecutive.lt_next (h : Consecutive offset steps) (hs : s ∈ steps) : offset < s.next := by
  induction steps generalizing offset with
  | nil => cases hs
  | cons first rest ih =>
    rcases List.mem_cons.1 hs with rfl | hs
    · exact h.2.1
    · exact h.2.1.trans (ih h.2.2 hs)

theorem Consecutive.length_le (h : Consecutive offset steps) :
    offset + steps.length ≤ endFrom offset steps := by
  induction steps generalizing offset with
  | nil => exact Nat.le_refl offset
  | cons first rest ih =>
    have hrest := ih h.2.2
    have hfirst := h.2.1
    rw [endFrom_cons, List.length_cons]
    omega

/-- Between the offset where steps start and the one they lead to, each offset is where a step ends
or inside one. -/
theorem Consecutive.exists_around (h : Consecutive offset steps) (hlow : offset < k)
    (hhigh : k < endFrom offset steps) : ∃ s ∈ steps, s.offset < k ∧ k ≤ s.next := by
  induction steps generalizing offset with
  | nil =>
    have hempty : k < offset := hhigh
    omega
  | cons first rest ih =>
    rw [endFrom_cons] at hhigh
    by_cases hk : k ≤ first.next
    · exact ⟨first, List.mem_cons_self, h.1 ▸ hlow, hk⟩
    · rcases ih h.2.2 (Nat.not_le.1 hk) hhigh with ⟨s, hs, haround⟩
      exact ⟨s, List.mem_cons_of_mem first hs, haround⟩

/-- None of the steps ends at or before an offset in front of them. -/
theorem Consecutive.filter_eq_nil (h : Consecutive offset steps) (hk : k ≤ offset) :
    steps.filter (·.next ≤ k) = [] := by
  refine List.filter_eq_nil_iff.2 fun s hs => ?_
  have hnext := h.lt_next hs
  simp only [decide_eq_true_eq]
  omega

/-! ## Walks -/

/-- A walk from an offset ends with the bytes, or it stops at an event that cannot be read, or it
takes a step over the bytes of an event. -/
inductive Walks : Nat → List UInt8 → Walk → Prop where
  | done (offset : Nat) : Walks offset [] ⟨[], none⟩
  | stuck (offset : Nat) {b : UInt8} {rest : List UInt8} {fault : TraceFault}
      (h : Event.read b rest = .error fault) :
      Walks offset (b :: rest) ⟨[], some (.malformedTrace offset fault)⟩
  | step {offset : Nat} {b : UInt8} {own rest : List UInt8} {e : Event} {w : Walk}
      (h : Event.Takes (Event.read b) own e) (hw : Walks (offset + 1 + own.length) rest w) :
      Walks offset (b :: (own ++ rest)) ⟨⟨offset, offset + 1 + own.length, e⟩ :: w.steps, w.error?⟩

/-- There is only one walk over some bytes. -/
theorem Walks.eq (h : Walks offset bytes w) : walkFrom offset 0 bytes = w := by
  induction h with
  | done offset => rfl
  | stuck offset h => simp only [walkFrom, h]
  | step h hw ih => simp only [walkFrom, h.whole, walkFrom_skip, ih]

/-- And there is one. -/
theorem walks_walkFrom (offset : Nat) (bytes : List UInt8) :
    Walks offset bytes (walkFrom offset 0 bytes) := by
  have hex : ∃ w, Walks offset bytes w := by
    -- on the number of bytes, since a step may pass over any number of them
    induction hlength : bytes.length using Nat.strongRecOn generalizing offset bytes with
    | ind length ih =>
      cases bytes with
      | nil => exact ⟨_, .done offset⟩
      | cons b rest =>
        cases hread : Event.read b rest with
        | error fault => exact ⟨_, .stuck offset hread⟩
        | ok result =>
          rcases Event.exists_takes hread with ⟨own, rest, rfl, -, htakes⟩
          rw [List.length_cons, List.length_append] at hlength
          rcases ih rest.length (by omega) (offset + 1 + own.length) rest rfl with ⟨w, hw⟩
          exact ⟨_, .step htakes hw⟩
  rcases hex with ⟨w, hw⟩
  rw [hw.eq]
  exact hw

theorem Walks.consecutive (h : Walks offset bytes w) : Consecutive offset w.steps := by
  induction h with
  | done offset => trivial
  | stuck offset h => trivial
  | step h hw ih => exact ⟨rfl, by simp only; omega, ih⟩

/-- A walk that is not stopped leads to the end of the bytes. -/
theorem Walks.endFrom_eq (h : Walks offset bytes w) (hall : w.error? = none) :
    endFrom offset w.steps = offset + bytes.length := by
  induction h with
  | done offset => rfl
  | stuck offset h => cases hall
  | step h hw ih =>
    rw [endFrom_cons, ih hall, List.length_cons, List.length_append]
    omega

/-- A walk that is stopped is so in front of some of the bytes, by an event that is malformed. -/
theorem Walks.exists_fault (h : Walks offset bytes w) {error : Error}
    (hstop : w.error? = some error) :
    endFrom offset w.steps < offset + bytes.length ∧
      ∃ fault, error = .malformedTrace (endFrom offset w.steps) fault := by
  induction h with
  | done offset => cases hstop
  | stuck offset h =>
    cases hstop
    exact ⟨Nat.lt_add_of_pos_right (Nat.succ_pos _), _, rfl⟩
  | step h hw ih =>
    rcases ih hstop with ⟨hlt, fault, hfault⟩
    refine ⟨?_, fault, by rw [endFrom_cons]; exact hfault⟩
    rw [endFrom_cons, List.length_cons, List.length_append]
    exact lt_of_lt_of_eq hlt (by omega)

/-! ## More bytes -/

/-- When the trace goes on, the walk begins with the same steps. -/
theorem Walks.append (h : Walks offset bytes w) (more : List UInt8) :
    w.steps <+: (walkFrom offset 0 (bytes ++ more)).steps := by
  induction h with
  | done offset => exact List.nil_prefix
  | stuck offset h => exact List.nil_prefix
  | @step offset b own rest e w h hw ih =>
    have hstep := Walks.step h (walks_walkFrom (offset + 1 + own.length) (rest ++ more))
    rw [List.cons_append, List.append_assoc, hstep.eq]
    exact (List.prefix_cons_inj _).2 ih

theorem steps_walk_append (bytes more : List UInt8) :
    (walk bytes).steps <+: (walk (bytes ++ more)).steps :=
  (walks_walkFrom 0 bytes).append more

/-! ## Fewer bytes -/

/-- Behind a step, the rest of the trace is cut. -/
theorem take_cons_append (b : UInt8) (own rest : List UInt8) (k : Nat) :
    (b :: (own ++ rest)).take (1 + own.length + k) = b :: (own ++ rest.take k) := by
  rw [Nat.add_assoc, Nat.add_comm 1, List.take_succ_cons, List.take_length_add_append]

/-- A trace that is cut where a step ends is walked over to its end. -/
theorem Walks.take_clean (h : Walks offset bytes w)
    (hk : k = 0 ∨ ∃ s ∈ w.steps, s.next = offset + k) :
    Walks offset (bytes.take k) ⟨w.steps.filter (·.next ≤ offset + k), none⟩ := by
  induction h generalizing k with
  | done offset =>
    rw [List.take_nil]
    exact .done offset
  | stuck offset h =>
    rcases hk with rfl | ⟨s, hs, -⟩
    · exact .done offset
    · cases hs
  | @step offset b own rest e w h hw ih =>
    have hall := (Walks.step h hw).consecutive
    by_cases hk0 : k = 0
    · rw [hk0, Nat.add_zero, List.take_zero, hall.filter_eq_nil (Nat.le_refl offset)]
      exact .done offset
    · rcases hk.resolve_left hk0 with ⟨s, hs, hnext⟩
      -- the first step is kept, and behind it the cut is between two steps again
      have hlength : 1 + own.length ≤ k := by
        rcases List.mem_cons.1 hs with rfl | hs
        · simp only at hnext
          omega
        · have hlater := hw.consecutive.lt_next hs
          omega
      obtain ⟨n, rfl⟩ := Nat.exists_eq_add_of_le hlength
      have hoffset : offset + 1 + own.length + n = offset + (1 + own.length + n) := by omega
      have hn : n = 0 ∨ ∃ s ∈ w.steps, s.next = offset + 1 + own.length + n := by
        rcases List.mem_cons.1 hs with rfl | hs
        · simp only at hnext
          exact .inl (by omega)
        · exact .inr ⟨s, hs, by omega⟩
      have hwalk := ih hn
      rw [hoffset] at hwalk
      rw [take_cons_append, List.filter_cons_of_pos (by simp only [decide_eq_true_eq]; omega)]
      exact .step h hwalk

/-- A trace that is cut inside a step is walked over up to the step, which is cut short. -/
theorem Walks.take_cut (h : Walks offset bytes w) (hs : s ∈ w.steps) (hlow : s.offset < offset + k)
    (hhigh : offset + k < s.next) :
    ∃ needed remaining, remaining < needed ∧
      Walks offset (bytes.take k)
        ⟨w.steps.filter (·.next ≤ offset + k),
          some (.malformedTrace s.offset (.truncated needed remaining))⟩ := by
  induction h generalizing k with
  | done offset => cases hs
  | stuck offset h => cases hs
  | @step offset b own rest e w h hw ih =>
    rcases List.mem_cons.1 hs with rfl | hs
    -- inside the first step
    · simp only at hlow hhigh
      obtain ⟨n, rfl⟩ := Nat.exists_eq_succ_of_ne_zero (n := k) (by omega)
      have hn : n < own.length := by omega
      rcases h.cut hn with ⟨needed, remaining, hlt, hcut⟩
      refine ⟨needed, remaining, hlt, ?_⟩
      have hnone : (⟨offset, offset + 1 + own.length, e⟩ :: w.steps).filter
          (·.next ≤ offset + (n + 1)) = [] := by
        rw [List.filter_cons_of_neg (by simp only [decide_eq_true_eq]; omega),
          hw.consecutive.filter_eq_nil (by omega)]
      rw [hnone, List.take_succ_cons, List.take_append_of_le_length hn.le]
      exact .stuck offset hcut
    -- inside a later one
    · have hlater := hw.consecutive.le_offset hs
      obtain ⟨n, rfl⟩ := Nat.exists_eq_add_of_le (show 1 + own.length ≤ k by omega)
      rcases ih hs (k := n) (by omega) (by omega) with ⟨needed, remaining, hlt, hwalk⟩
      refine ⟨needed, remaining, hlt, ?_⟩
      have hoffset : offset + 1 + own.length + n = offset + (1 + own.length + n) := by omega
      rw [hoffset] at hwalk
      rw [take_cons_append, List.filter_cons_of_pos (by simp only [decide_eq_true_eq]; omega)]
      exact .step h hwalk

end Trace

end Retrace
