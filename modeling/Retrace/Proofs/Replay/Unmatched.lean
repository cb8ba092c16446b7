import Mathlib.Data.Nat.Find
import Retrace.Proofs.Replay.Machine
import Retrace.Proofs.Trace.Matching

/-!
# Unmatched — replay finds the calls that no return matches

What replay builds up event by event can be read off the list of events.

* `Trace.offence?` — what is wrong with an event, going by those before it;
* `Trace.Replayable` — the events up to a number have nothing wrong with them;
* `Machine.Holds` — what ties a machine to the events that it has replayed;
* `Machine.Holds.apply` — an event that is at fault is reported, and any other is replayed;
* `Recording.stackAt_openCalls` — a question about a trace is answered with the calls that no return
  matches, or with the first offence.
-/

namespace Retrace

/-! ## Offences -/

/-- What is wrong with an event at a byte offset, going by the events before it. -/
def Event.fault? (before : List Event) (offset : Nat) (e : Event) : Option Error :=
  match e.use? with
  | some use =>
    if Trace.active? before = none then
      some (.malformedTrace offset (.noModule use before.length))
    else none
  | none =>
    if e = .ret ∧ Trace.calls before ≤ Trace.returns before then
      some (.unbalancedReturn before.length)
    else none

namespace Trace

/-- What is wrong with step `k`, going by the steps before it. -/
def fault? (steps : List Step) (k : Nat) : Option Error :=
  steps[k]?.bind fun s => s.event.fault? ((steps.take k).map (·.event)) s.offset

/-- What is wrong with event `k` of a trace.  The event after the last that can be read is one that
cannot be read, unless the trace ends there. -/
def offence? (bytes : List UInt8) (k : Nat) : Option Error :=
  if k < (walk bytes).steps.length then fault? (walk bytes).steps k
  else
    match Event.decodeAt bytes (walk bytes).stop with
    | .error e => some e
    | .ok _ => none

/-- The events up to number `i`, as far as they can be read. -/
def upTo (bytes : List UInt8) (i : Nat) : List Event :=
  ((walk bytes).steps.take (i + 1)).map (·.event)

/-- The events up to number `i` can be read, or the whole trace if it has no more, and each of them
has the module and the call that it needs. -/
structure Replayable (bytes : List UInt8) (i : Nat) : Prop where
  readable : i < (walk bytes).steps.length ∨ ∃ events, decode bytes = .ok events
  housed : Housed (upTo bytes i)
  balanced : Balanced (upTo bytes i)

end Trace

/-! ## Replaying one event -/

/-- What ties a machine to the events that it has replayed: it has the module that was set last, and
the calls that stay open, where the `n`-th from the inside has `n` calls open inside it. -/
structure Machine.Holds (m : Machine) (events : List Event) : Prop where
  active : m.active = Trace.active? events
  frames : Trace.leveledCalls events = m.frames.zipIdx.reverse
  depth : m.frames.length + Trace.returns events = Trace.calls events

namespace Machine

open Trace

variable {m : Machine} {events : List Event}

theorem holds_start : start.Holds [] := ⟨rfl, rfl, rfl⟩

theorem Holds.openCalls (h : m.Holds events) : openCalls events = m.stack.frames := by
  rw [← map_fst_leveledCalls, h.frames, List.map_reverse, List.zipIdx_map_fst]
  rfl

/-- What the open calls become, from the innermost one on. -/
theorem Holds.frames_concat (h : m.Holds events) (e : Event) :
    leveledCalls (events ++ [e])
      = (((opened? events e).map (·, 0)).toList ++ m.frames.zipIdx.filterMap e.shift).reverse := by
  rw [leveledCalls_concat, h.frames, List.filterMap_reverse, List.reverse_append]
  cases opened? events e <;> rfl

/-- The open calls stay as they are. -/
theorem Holds.frames_quiet (h : m.Holds events) {e : Event} (hopened : opened? events e = none)
    (hshift : ∀ entry, e.shift entry = some entry) :
    leveledCalls (events ++ [e]) = m.frames.zipIdx.reverse := by
  rw [h.frames_concat, hopened, filterMap_shift_quiet hshift]
  rfl

theorem Holds.setModule (h : m.Holds events) (id : Nat) :
    ({ m with active := some id } : Machine).Holds (events ++ [.setModule id]) where
  active := (active?_concat events (.setModule id)).symm
  frames := h.frames_quiet rfl fun _ => rfl
  depth := by
    rw [calls_append, returns_append]
    exact h.depth

theorem Holds.table (h : m.Holds events) (payload : List UInt8)
    (tables : List (Nat × List UInt8)) :
    ({ m with tables := tables } : Machine).Holds (events ++ [.table payload]) where
  active := h.active.trans (active?_concat_other events rfl).symm
  frames := h.frames_quiet rfl fun _ => rfl
  depth := by
    rw [calls_append, returns_append]
    exact h.depth

theorem Holds.call (h : m.Holds events) {module : Nat} (hactive : active? events = some module)
    (function : Nat) :
    ({ m with frames := ⟨module, function, none⟩ :: m.frames } : Machine).Holds
      (events ++ [.call function]) where
  active := h.active.trans (active?_concat_other events rfl).symm
  frames := by
    have hopened : opened? events (.call function) = some ⟨module, function, none⟩ := by
      rw [opened?, hactive]
      rfl
    rw [h.frames_concat, hopened, filterMap_shift_call]
    rfl
  depth := by
    rw [calls_append, returns_append, ← h.depth]
    exact Nat.succ_add _ _

/-- Where no call is open, a block belongs to none. -/
theorem Holds.block_nil (h : m.Holds events) (hframes : m.frames = []) (id : Nat) :
    m.Holds (events ++ [.block id]) where
  active := h.active.trans (active?_concat_other events rfl).symm
  frames := by
    rw [h.frames_concat, hframes]
    rfl
  depth := by
    rw [calls_append, returns_append]
    exact h.depth

/-- A block belongs to the innermost open call. -/
theorem Holds.block_cons (h : m.Holds events) {top : Frame} {rest : List Frame}
    (hframes : m.frames = top :: rest) (id : Nat) :
    ({ m with frames := { top with block := some id } :: rest } : Machine).Holds
      (events ++ [.block id]) where
  active := h.active.trans (active?_concat_other events rfl).symm
  frames := by
    rw [h.frames_concat, hframes, List.zipIdx_cons, List.filterMap_cons, filterMap_shift_block]
    rfl
  depth := by
    rw [calls_append, returns_append, ← h.depth, hframes]
    rfl

/-- A return ends the innermost open call. -/
theorem Holds.ret (h : m.Holds events) {top : Frame} {rest : List Frame}
    (hframes : m.frames = top :: rest) :
    ({ m with frames := rest } : Machine).Holds (events ++ [.ret]) where
  active := h.active.trans (active?_concat_other events rfl).symm
  frames := by
    rw [h.frames_concat, hframes, List.zipIdx_cons, List.filterMap_cons, filterMap_shift_ret]
    rfl
  depth := by
    rw [calls_append, returns_append, ← h.depth, hframes]
    exact (Nat.succ_add_eq_add_succ _ _).symm

theorem Holds.requireModule (h : m.Holds events) (index offset : Nat) (use : ModuleUse) :
    m.requireModule index offset use =
      match active? events with
      | some module => .ok module
      | none => .error (.malformedTrace offset (.noModule use index)) := by
  cases hactive : active? events <;> simp only [Machine.requireModule, h.active, hactive]

/-- An event that is at fault is reported, and any other is replayed. -/
theorem Holds.apply (h : m.Holds events) (offset : Nat) (e : Event) :
    match e.fault? events offset with
    | some error => m.apply events.length offset e = .error error
    | none => ∃ m', m.apply events.length offset e = .ok m' ∧ m'.Holds (events ++ [e]) := by
  cases e with
  | setModule id => exact ⟨_, rfl, h.setModule id⟩
  | table payload =>
    have hrequire := h.requireModule events.length offset .table
    simp only [Event.fault?, Event.use?, Machine.apply, hrequire]
    cases hactive : active? events with
    | none => rfl
    | some module => exact ⟨_, rfl, h.table payload _⟩
  | call function =>
    have hrequire := h.requireModule events.length offset .call
    simp only [Event.fault?, Event.use?, Machine.apply, hrequire]
    cases hactive : active? events with
    | none => rfl
    | some module => exact ⟨_, rfl, h.call hactive function⟩
  | block id =>
    simp only [Machine.apply]
    cases hframes : m.frames with
    | nil => exact ⟨_, rfl, h.block_nil hframes id⟩
    | cons top rest => exact ⟨_, rfl, h.block_cons hframes id⟩
  | ret =>
    have hdepth := h.depth
    simp only [Event.fault?, Event.use?, Machine.apply]
    cases hframes : m.frames with
    | nil =>
      rw [hframes, List.length_nil] at hdepth
      rw [if_pos ⟨trivial, by omega⟩]
    | cons top rest =>
      rw [hframes, List.length_cons] at hdepth
      rw [if_neg fun hover => by omega]
      exact ⟨_, rfl, h.ret hframes⟩

end Machine

/-! ## Replaying steps -/

namespace Trace

variable {steps : List Step} {k : Nat}

theorem fault?_append (hk : k < steps.length) (steps' : List Step) :
    fault? (steps ++ steps') k = fault? steps k := by
  rw [fault?, fault?, List.getElem?_append_left hk,
    List.take_append_of_le_length (Nat.le_of_lt hk)]

theorem fault?_length (steps : List Step) (s : Step) :
    fault? (steps ++ [s]) steps.length = s.event.fault? (steps.map (·.event)) s.offset := by
  rw [fault?, List.getElem?_concat_length, Option.bind_some, List.take_left]

/-- No step of a list is at fault, with one step more. -/
theorem forall_fault?_concat (steps : List Step) (s : Step) :
    (∀ k < (steps ++ [s]).length, fault? (steps ++ [s]) k = none) ↔
      (∀ k < steps.length, fault? steps k = none) ∧
        s.event.fault? (steps.map (·.event)) s.offset = none := by
  rw [List.length_append, List.length_singleton, Nat.forall_lt_succ_right, fault?_length]
  refine and_congr_left fun _ => forall₂_congr fun k hk => ?_
  rw [fault?_append hk]

end Trace

open Trace in
/-- An event is at fault if it has no module that it needs, or if it returns from no call. -/
theorem Event.fault?_eq_none_iff {events : List Event} (h : Balanced events) (offset : Nat)
    (e : Event) :
    e.fault? events offset = none ↔
      (e.use?.isSome → (active? events).isSome) ∧
        returns (events ++ [e]) ≤ calls (events ++ [e]) := by
  have hle := h.le
  rw [calls_append, returns_append]
  cases e with
  | setModule id => exact iff_of_true rfl ⟨(nomatch ·), hle⟩
  | table payload =>
    have hfew : returns events + returns [.table payload]
        ≤ calls events + calls [.table payload] := hle
    cases hactive : active? events <;> simp [fault?, use?, hactive, hfew]
  | call function =>
    have hfew : returns events + returns [.call function]
        ≤ calls events + calls [.call function] := Nat.le_succ_of_le hle
    cases hactive : active? events <;> simp [fault?, use?, hactive, hfew]
  | block id => exact iff_of_true rfl ⟨(nomatch ·), hle⟩
  | ret =>
    have hfew : returns events + returns [.ret] ≤ calls events + calls [.ret]
        ↔ returns events < calls events := Iff.rfl
    simp [fault?, use?, hfew]

namespace Trace

variable {steps : List Step}

/-- No step is at fault where each has the module and the call that it needs. -/
theorem forall_fault?_iff (steps : List Step) :
    (∀ k < steps.length, fault? steps k = none) ↔
      Housed (steps.map (·.event)) ∧ Balanced (steps.map (·.event)) := by
  induction steps using List.reverseRecOn with
  | nil => simp [Housed, balanced_nil]
  | append_singleton steps s ih =>
    rw [forall_fault?_concat, ih, List.map_append, List.map_singleton, housed_concat,
      balanced_concat]
    constructor
    · rintro ⟨⟨hhoused, hbal⟩, hfault⟩
      rcases (Event.fault?_eq_none_iff hbal _ _).1 hfault with ⟨huse, hle⟩
      exact ⟨⟨hhoused, huse⟩, hbal, hle⟩
    · rintro ⟨⟨hhoused, huse⟩, hbal, hle⟩
      exact ⟨⟨hhoused, hbal⟩, (Event.fault?_eq_none_iff hbal _ _).2 ⟨huse, hle⟩⟩

end Trace

namespace Machine

open Trace

variable {steps : List Step}

/-- Steps of which none is at fault are replayed. -/
theorem run_ok (h : ∀ k < steps.length, fault? steps k = none) :
    ∃ m, start.run 0 steps = .ok m ∧ m.Holds (steps.map (·.event)) := by
  induction steps using List.reverseRecOn with
  | nil => exact ⟨start, rfl, holds_start⟩
  | append_singleton steps s ih =>
    rcases (forall_fault?_concat steps s).1 h with ⟨hsteps, hs⟩
    rcases ih hsteps with ⟨m, hrun, hm⟩
    have hstep := hm.apply s.offset s.event
    rw [hs, List.length_map] at hstep
    rcases hstep with ⟨m', happly, hm'⟩
    refine ⟨m', ?_, by rwa [List.map_append]⟩
    rw [run_append, hrun, Except.ok_bind, Nat.zero_add, run, happly]
    rfl

/-- The first step that is at fault is reported. -/
theorem run_fault {k : Nat} {e : Error} (hk : fault? steps k = some e)
    (hfirst : ∀ j < k, fault? steps j = none) : start.run 0 steps = .error e := by
  rcases Option.bind_eq_some_iff.1 hk with ⟨s, hs, hfault⟩
  rcases List.getElem?_eq_some_iff.1 hs with ⟨hlt, rfl⟩
  have hlength : (steps.take k).length = k := List.length_take_of_le (Nat.le_of_lt hlt)
  have hsplit : steps = steps.take k ++ steps[k] :: steps.drop (k + 1) := by
    rw [List.getElem_cons_drop, List.take_append_drop]
  have hbefore : ∀ j < (steps.take k).length, fault? (steps.take k) j = none := by
    intro j hj
    rw [← fault?_append hj (steps.drop k), List.take_append_drop]
    exact hfirst j (hlength ▸ hj)
  rcases run_ok hbefore with ⟨m, hrun, hm⟩
  have hstep := hm.apply steps[k].offset steps[k].event
  rw [hfault, List.length_map, hlength] at hstep
  rw [hsplit, run_append, hrun, Except.ok_bind, hlength, Nat.zero_add, run, hstep]
  rfl

end Machine

/-! ## Asking a trace -/

namespace Trace

variable {bytes : List UInt8}

theorem offence?_of_lt {k : Nat} (hk : k < (walk bytes).steps.length) :
    offence? bytes k = fault? (walk bytes).steps k := if_pos hk

/-- What stops the walk is the offence after those of the events that can be read. -/
theorem offence?_of_le {k : Nat} (hk : (walk bytes).steps.length ≤ k) :
    offence? bytes k = (walk bytes).error? := by
  rw [offence?, if_neg (Nat.not_lt.2 hk), decodeAt_stop]
  cases (walk bytes).error? <;> rfl

/-- The events up to number `i` are those that come before the offences up to there. -/
theorem fault?_take {i k : Nat} (hi : k ≤ i) (hk : k < (walk bytes).steps.length) :
    fault? ((walk bytes).steps.take (i + 1)) k = offence? bytes k := by
  have hlt : k < ((walk bytes).steps.take (i + 1)).length := by
    rw [List.length_take]
    omega
  rw [offence?_of_lt hk, ← fault?_append hlt ((walk bytes).steps.drop (i + 1)),
    List.take_append_drop]

/-- Without an offence up to event `i`, all events up to there can be replayed. -/
theorem replayable_of_forall {i : Nat} (h : ∀ k ≤ i, offence? bytes k = none) :
    Replayable bytes i := by
  have hfault : ∀ k < ((walk bytes).steps.take (i + 1)).length,
      fault? ((walk bytes).steps.take (i + 1)) k = none := by
    intro k hk
    rw [List.length_take] at hk
    rw [fault?_take (by omega) (by omega)]
    exact h k (by omega)
  rcases (forall_fault?_iff _).1 hfault with ⟨hhoused, hbalanced⟩
  refine ⟨?_, hhoused, hbalanced⟩
  by_cases hi : i < (walk bytes).steps.length
  · exact .inl hi
  · refine .inr (exists_decode_iff.2 ?_)
    rw [← offence?_of_le (Nat.le_refl _)]
    exact h _ (Nat.not_lt.1 hi)

/-- Up to an event that cannot be replayed there is a first offence. -/
theorem exists_offence {i : Nat} (h : ¬ Replayable bytes i) :
    ∃ k ≤ i, ∃ e, offence? bytes k = some e ∧ ∀ j < k, offence? bytes j = none := by
  have hex : ∃ k, k ≤ i ∧ (offence? bytes k).isSome := by
    by_contra hnone
    refine h (replayable_of_forall fun k hk => ?_)
    exact Option.not_isSome_iff_eq_none.1 fun hsome => hnone ⟨k, hk, hsome⟩
  rcases Nat.find_spec hex with ⟨hle, hsome⟩
  rcases Option.isSome_iff_exists.1 hsome with ⟨e, he⟩
  refine ⟨Nat.find hex, hle, e, he, fun j hj => ?_⟩
  exact Option.not_isSome_iff_eq_none.1 fun hj' =>
    Nat.find_min hex hj ⟨by omega, hj'⟩

end Trace

namespace Recording

open Trace

variable {bytes : List UInt8} {i : Nat}

/-- The first offence up to an event is what a question about the event is answered with. -/
theorem replay_of_offence {k : Nat} {e : Error} (hi : k ≤ i) (hk : offence? bytes k = some e)
    (hfirst : ∀ j < k, offence? bytes j = none) : (ofBytes bytes).replay i = .error e := by
  rw [replay_eq]
  rcases Nat.lt_trichotomy k (Trace.walk bytes).steps.length with hlt | rfl | hgt
  -- an event that can be read and is at fault
  · rw [Machine.run_fault ((fault?_take hi hlt).trans hk) fun j hj => ?_]
    · rfl
    · rw [fault?_take (by omega) (by omega)]
      exact hfirst j hj
  -- the event that cannot be read
  · have hfault : ∀ j < (Trace.walk bytes).steps.length, fault? (Trace.walk bytes).steps j = none :=
      fun j hj => (offence?_of_lt hj).symm.trans (hfirst j hj)
    rcases Machine.run_ok hfault with ⟨m, hrun, -⟩
    rw [List.take_of_length_le (by omega), hrun, Except.ok_bind, if_neg (Nat.not_lt.2 hi),
      checkEnd_eq, ← offence?_of_le (Nat.le_refl _), hk]
    rfl
  -- nothing comes after that one
  · have hnone := hfirst _ hgt
    rw [offence?_of_le (Nat.le_refl _), ← offence?_of_le hgt.le, hk] at hnone
    cases hnone

/-- Where there is no offence, the machine holds what the events up to number `i` have left. -/
theorem replay_of_replayable (h : Replayable bytes i) :
    ∃ m, (ofBytes bytes).replay i = .ok m ∧ m.Holds (upTo bytes i) := by
  rcases Machine.run_ok ((forall_fault?_iff _).2 ⟨h.housed, h.balanced⟩) with ⟨m, hrun, hm⟩
  refine ⟨m, ?_, hm⟩
  rw [replay_eq, hrun, Except.ok_bind]
  by_cases hi : i < (Trace.walk bytes).steps.length
  · exact if_pos hi
  · rw [if_neg hi, checkEnd_eq, exists_decode_iff.1 (h.readable.resolve_left hi)]
    rfl

/-- A question about an event is answered with the calls that stay open up to it: those that no
return matches, each in the module set last before it and with the block reached last at its own
level.  So there are as many as there are more calls than returns.  If an event up to there lacks
the module or the call that it needs, or cannot be read, then the first such event is reported. -/
theorem stackAt_openCalls (bytes : List UInt8) (i : Nat) :
    (Replayable bytes i →
        ∃ stack, (ofBytes bytes).stackAt i = .ok stack ∧
          stack.frames = openCalls (upTo bytes i) ∧
          stack.depth + returns (upTo bytes i) = calls (upTo bytes i)) ∧
      (¬ Replayable bytes i →
        ∃ k ≤ i, ∃ e, offence? bytes k = some e ∧ (∀ j < k, offence? bytes j = none) ∧
          (ofBytes bytes).stackAt i = .error e) := by
  constructor
  · intro h
    rcases replay_of_replayable h with ⟨m, hreplay, hm⟩
    refine ⟨m.stack, ?_, hm.openCalls.symm, ?_⟩
    · rw [stackAt, hreplay]
      rfl
    · rw [← hm.depth, Stack.depth, Machine.stack, List.length_reverse]
  · intro h
    rcases exists_offence h with ⟨k, hk, e, hoffence, hfirst⟩
    refine ⟨k, hk, e, hoffence, hfirst, ?_⟩
    rw [stackAt, replay_of_offence hk hoffence hfirst]
    rfl

/-- Function 5 of module 1 reaches block 2, calls function 6 and, once that has reached block 9 and
returned, reaches block 3; the last byte starts no event. -/
def brokenTrace : List UInt8 := [0x01, 0x45, 0x82, 0x46, 0x89, 0xC0, 0x83, 0xC2]

theorem stackAt_openCalls_brokenTrace :
    (∃ stack, (ofBytes brokenTrace).stackAt 4 = .ok stack ∧
        stack.frames = [⟨1, 5, some 2⟩, ⟨1, 6, some 9⟩]) ∧
      (∃ stack, (ofBytes brokenTrace).stackAt 6 = .ok stack ∧ stack.frames = [⟨1, 5, some 3⟩]) ∧
      (ofBytes brokenTrace).stackAt 7 = .error (.malformedTrace 7 (.unknownOpcode 0xC2)) := by
  have hinner : openCalls (upTo brokenTrace 4) = [⟨1, 5, some 2⟩, ⟨1, 6, some 9⟩] := by
    decide +kernel
  have houter : openCalls (upTo brokenTrace 6) = [⟨1, 5, some 3⟩] := by decide +kernel
  have hfour : Replayable brokenTrace 4 :=
    ⟨.inl (by decide +kernel), by decide +kernel, by decide +kernel⟩
  have hsix : Replayable brokenTrace 6 :=
    ⟨.inl (by decide +kernel), by decide +kernel, by decide +kernel⟩
  have hnone : ∀ k < 7, offence? brokenTrace k = none := by decide +kernel
  have hlast : offence? brokenTrace 7 = some (.malformedTrace 7 (.unknownOpcode 0xC2)) := by
    decide +kernel
  have hseven : ¬ Replayable brokenTrace 7 := by
    intro h
    rcases h.readable with hlt | hread
    · exact absurd hlt (by decide +kernel)
    · exact absurd (exists_decode_iff.1 hread) (by decide +kernel)
  refine ⟨?_, ?_, ?_⟩
  · rcases (stackAt_openCalls brokenTrace 4).1 hfour with ⟨stack, hstack, hframes, -⟩
    exact ⟨stack, hstack, hframes.trans hinner⟩
  · rcases (stackAt_openCalls brokenTrace 6).1 hsix with ⟨stack, hstack, hframes, -⟩
    exact ⟨stack, hstack, hframes.trans houter⟩
  · rcases (stackAt_openCalls brokenTrace 7).2 hseven with ⟨k, hk, e, he, -, hstack⟩
    rcases Nat.lt_or_eq_of_le hk with hlt | rfl
    · rw [hnone k hlt] at he
      cases he
    · cases he.symm.trans hlast
      exact hstack

end Recording

end Retrace
