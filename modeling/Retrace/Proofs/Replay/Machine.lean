import Retrace.Proofs.Trace.Wire
import Retrace.Proofs.Result
import Retrace.Replay.Recording

/-!
# Machine — replaying the events of a trace

* `Machine.run_append` — replaying one stretch of events after another;
* `Machine.run_prefix` — events that can be replayed can be replayed up to any point;
* `Recording.replay_eq`, `Recording.replay_eq_ok` — a question replays the events up to its number,
  and then the end counts if there are no more;
* `Recording.replay_bytes` — a question about a readable trace replays its first events.
-/

namespace Retrace

namespace Trace

theorem length_stepsFrom (offset : Nat) (events : List Event) :
    (stepsFrom offset events).length = events.length := by
  induction events generalizing offset with
  | nil => rfl
  | cons e rest ih => exact congrArg Nat.succ (ih _)

theorem stepsFrom_append (offset : Nat) (events events' : List Event) :
    stepsFrom offset (events ++ events')
      = stepsFrom offset events
          ++ stepsFrom (offset + (events.flatMap Event.bytes).length) events' := by
  induction events generalizing offset with
  | nil => rfl
  | cons e rest ih =>
    have hoffset : offset + e.bytes.length + (rest.flatMap Event.bytes).length
        = offset + ((e :: rest).flatMap Event.bytes).length := by
      rw [List.flatMap_cons, List.length_append, Nat.add_assoc]
    rw [List.cons_append, stepsFrom, stepsFrom, ih, hoffset]
    rfl

theorem take_stepsFrom (offset n : Nat) (events : List Event) :
    (stepsFrom offset events).take n = stepsFrom offset (events.take n) := by
  induction events generalizing offset n with
  | nil => simp [stepsFrom]
  | cons e rest ih =>
    cases n with
    | zero => rfl
    | succ n => rw [stepsFrom, List.take_succ_cons, List.take_succ_cons, stepsFrom, ih]

end Trace

namespace Machine

variable {m : Machine} {index : Nat} {steps steps' : List Step}

theorem run_append (m : Machine) (index : Nat) (steps steps' : List Step) :
    m.run index (steps ++ steps')
      = m.run index steps >>= fun m => m.run (index + steps.length) steps' := by
  induction steps generalizing m index with
  | nil => rfl
  | cons s rest ih =>
    rw [List.cons_append, run, run]
    cases m.apply index s.offset s.event with
    | error e => rfl
    | ok m' =>
      have hindex : index + 1 + rest.length = index + (s :: rest).length := by
        rw [List.length_cons]
        omega
      rw [Except.ok_bind, Except.ok_bind, ih, hindex]

theorem run_event (m : Machine) (index offset : Nat) (e : Event) :
    m.run index (Trace.stepsFrom offset [e]) = m.apply index offset e := by
  rw [Trace.stepsFrom, Trace.stepsFrom, run]
  cases m.apply index offset e with
  | error e => rfl
  | ok m' => rfl

theorem run_cons {m' : Machine} {offset : Nat} {e : Event} {rest : List Event}
    (h : m.apply index offset e = .ok m') :
    m.run index (Trace.stepsFrom offset (e :: rest))
      = m'.run (index + 1) (Trace.stepsFrom (offset + e.bytes.length) rest) := by
  rw [Trace.stepsFrom, run, h, Except.ok_bind]

/-- Events that can be replayed can be replayed up to any point. -/
theorem run_prefix {m' : Machine} (h : m.run index (steps ++ steps') = .ok m') :
    ∃ middle, m.run index steps = .ok middle := by
  rw [run_append] at h
  rcases Except.bind_eq_ok.1 h with ⟨middle, hmiddle, -⟩
  exact ⟨middle, hmiddle⟩

/-- What cannot be replayed stays so, whatever follows. -/
theorem run_error {e : Error} (h : m.run index steps = .error e) (steps' : List Step) :
    m.run index (steps ++ steps') = .error e := by
  rw [run_append, h]
  rfl

theorem lookup_putTable_self (id : Nat) (bytes : List UInt8) (tables : List (Nat × List UInt8)) :
    (putTable id bytes tables).lookup id = some bytes := by
  induction tables with
  | nil => simp [putTable]
  | cons entry rest ih =>
    rw [putTable]
    by_cases hid : entry.1 = id
    · simp [hid]
    · have hne : (id == entry.1) = false := beq_false_of_ne fun h => hid h.symm
      rw [if_neg hid, List.lookup_cons, hne]
      exact ih

theorem lookup_putTable_of_ne {id other : Nat} (h : other ≠ id) (bytes : List UInt8)
    (tables : List (Nat × List UInt8)) :
    (putTable id bytes tables).lookup other = tables.lookup other := by
  have hne : (other == id) = false := beq_false_of_ne h
  induction tables with
  | nil => simpa [putTable] using h
  | cons entry rest ih =>
    rw [putTable]
    by_cases hid : entry.1 = id
    · rw [if_pos hid, List.lookup_cons, List.lookup_cons, hid, hne]
    · rw [if_neg hid, List.lookup_cons, List.lookup_cons, ih]

end Machine

namespace Recording

/-- The events up to number `i` are replayed, and then the end is checked if there are no more. -/
theorem replay_eq (bytes : List UInt8) (i : Nat) :
    (ofBytes bytes).replay i =
      Machine.start.run 0 ((Trace.walk bytes).steps.take (i + 1)) >>= fun m =>
        if i < (Trace.walk bytes).steps.length then .ok m
        else (ofBytes bytes).checkEnd >>= fun _ => .ok m := by
  have hwalk : (ofBytes bytes).walk = Trace.walk bytes := rfl
  rw [replay, replayAll, hwalk]
  by_cases hi : i < (Trace.walk bytes).steps.length
  · simp only [if_pos hi]
    cases Machine.start.run 0 ((Trace.walk bytes).steps.take (i + 1)) <;> rfl
  · simp only [if_neg hi]
    rw [List.take_of_length_le (by omega)]
    rfl

theorem checkEnd_eq (bytes : List UInt8) :
    (ofBytes bytes).checkEnd =
      match (Trace.walk bytes).error? with
      | some e => .error e
      | none => .ok () := rfl

/-- A question has an answer if the events up to its number can be replayed, and the trace be read to
its end if there are no more. -/
theorem replay_eq_ok {bytes : List UInt8} {i : Nat} {m : Machine} :
    (ofBytes bytes).replay i = .ok m ↔
      Machine.start.run 0 ((Trace.walk bytes).steps.take (i + 1)) = .ok m ∧
        (i < (Trace.walk bytes).steps.length ∨ (ofBytes bytes).checkEnd = .ok ()) := by
  rw [replay_eq, Except.bind_eq_ok]
  by_cases hi : i < (Trace.walk bytes).steps.length
  · simp [hi]
  · simp only [hi, if_false, false_or, Except.bind_eq_ok]
    constructor
    · rintro ⟨m', hrun, ⟨⟩, hend, hm'⟩
      cases hm'
      exact ⟨hrun, hend⟩
    · rintro ⟨hrun, hend⟩
      exact ⟨m, hrun, (), hend, rfl⟩

/-- A stack is that of the machine which the replay ends with. -/
theorem stackAt_eq_ok {r : Recording} {i : Nat} {s : Stack} :
    r.stackAt i = .ok s ↔ ∃ m, r.replay i = .ok m ∧ m.stack = s := by
  rw [stackAt, Except.bind_eq_ok]
  exact exists_congr fun m => and_congr_right fun _ => ⟨Except.ok.inj, congrArg Except.ok⟩

theorem stackAt_eq_error {r : Recording} {i : Nat} {e : Error} :
    r.stackAt i = .error e ↔ r.replay i = .error e := by
  rw [stackAt, Except.bind_eq_error]
  refine or_iff_left ?_
  rintro ⟨m, -, h⟩
  cases h

/-- A question about a readable trace replays its first events, or all if there are no more. -/
theorem replay_bytes {events : List Event} (h : ∀ e ∈ events, e.Fits) (i : Nat) :
    (ofBytes (events.flatMap Event.bytes)).replay i
      = Machine.start.run 0 (Trace.stepsFrom 0 (events.take (i + 1))) := by
  rw [replay_eq, checkEnd_eq, Trace.walk_bytes h, ← Trace.take_stepsFrom]
  cases Machine.start.run 0 ((Trace.stepsFrom 0 events).take (i + 1)) with
  | error e => rfl
  | ok m => exact ite_self _

end Recording

end Retrace
