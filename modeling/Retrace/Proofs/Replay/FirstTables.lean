import Retrace.Proofs.Replay.LiveStack
import Retrace.Proofs.Replay.Timeline
import Retrace.Proofs.Replay.Unmatched
import Retrace.Proofs.Trace.Tables

/-!
# FirstTables — the table seen last and the first of all

A stack can be resolved by the tables that came up to its event, or by the first table that the
whole trace has for each module.

* `Machine.lookup_run` — a machine that has replayed some events has the last payload of each
  module;
* `Recording.firstPayload?_eq` — a look through the whole trace finds the first one;
* `Recording.table?_eq_tableOf?` — for an open call they are the same where tables come first;
* `Recording.resolvedStack_agree` — and so a timeline, a stack resolved later and a stack resolved
  at once agree.
-/

namespace Retrace

open Trace

/-! ## The payload seen last -/

namespace Machine

variable {m m' : Machine} {index offset : Nat}

theorem active_apply {e : Event} (h : m.apply index offset e = .ok m') :
    m'.active = e.module?.or m.active := by
  cases e with
  | setModule id =>
    cases h
    rfl
  | table payload =>
    rcases Except.bind_eq_ok.1 h with ⟨id, -, hm'⟩
    cases hm'
    rfl
  | call function =>
    rcases Except.bind_eq_ok.1 h with ⟨id, -, hm'⟩
    cases hm'
    rfl
  | block id =>
    rcases m with ⟨active, _ | ⟨top, frames⟩, tables⟩ <;> cases h <;> rfl
  | ret =>
    rcases m with ⟨active, _ | ⟨top, frames⟩, tables⟩ <;> cases h
    rfl

theorem active_of_requireModule {use : ModuleUse} {id : Nat}
    (h : m.requireModule index offset use = .ok id) : m.active = some id := by
  rw [requireModule] at h
  cases hactive : m.active with
  | none =>
    rw [hactive] at h
    cases h
  | some active =>
    rw [hactive] at h
    cases h
    rfl

theorem lookup_apply {e : Event} (h : m.apply index offset e = .ok m') (id : Nat) :
    m'.tables.lookup id = (e.payload? id m.active).or (m.tables.lookup id) := by
  cases e with
  | setModule next =>
    cases h
    rfl
  | table payload =>
    rcases Except.bind_eq_ok.1 h with ⟨module, hmodule, hm'⟩
    cases hm'
    rw [Event.payload?, active_of_requireModule hmodule]
    by_cases hid : module = id
    · rw [hid, if_pos rfl, lookup_putTable_self, Option.some_or]
    · have hne : ¬ some module = some id := fun heq => hid (Option.some.inj heq)
      rw [if_neg hne, lookup_putTable_of_ne fun heq => hid heq.symm, Option.none_or]
  | call function =>
    rcases Except.bind_eq_ok.1 h with ⟨module, -, hm'⟩
    cases hm'
    rfl
  | block id =>
    rcases m with ⟨active, _ | ⟨top, frames⟩, tables⟩ <;> cases h <;> rfl
  | ret =>
    rcases m with ⟨active, _ | ⟨top, frames⟩, tables⟩ <;> cases h
    rfl

/-- A machine has the payload of each module that came last. -/
theorem lookup_run {steps : List Step} (h : m.run index steps = .ok m') (id : Nat) :
    m'.tables.lookup id
      = (payloads id m.active (steps.map (·.event))).getLast?.or (m.tables.lookup id) := by
  induction steps generalizing m index with
  | nil =>
    cases h
    rfl
  | cons s rest ih =>
    rcases Except.bind_eq_ok.1 h with ⟨middle, happly, hrest⟩
    have hone : (s.event.payload? id m.active).toList.getLast? = s.event.payload? id m.active := by
      cases s.event.payload? id m.active <;> rfl
    rw [ih hrest, active_apply happly, lookup_apply happly, List.map_cons, payloads,
      List.getLast?_append, hone, Option.or_assoc]

end Machine

/-! ## The first payload -/

namespace Recording

variable {bytes : List UInt8} {events : List Event} {i : Nat} {m : Machine}

/-- A look through a trace finds the payload of a module that comes first. -/
theorem firstPayload?_eq (id : Nat) (active : Option Nat) (steps : List Step) :
    firstPayload? id active steps = (payloads id active (steps.map (·.event))).head? := by
  induction steps generalizing active with
  | nil => rfl
  | cons s rest ih =>
    rw [firstPayload?, List.map_cons, payloads]
    cases s.event with
    | table payload =>
      by_cases hactive : active = some id
      · simp only [Event.payload?, if_pos hactive]
        rfl
      · simp only [Event.payload?, if_neg hactive]
        exact ih active
    | _ => exact ih _

/-! ## Traces with their tables first -/

/-- An open call started while its module was active. -/
theorem exists_call_of_mem_frames (h : m.Holds events) {f : Frame} (hf : f ∈ m.frames) :
    ∃ front function rest, events = front ++ .call function :: rest ∧
      active? front = some f.module := by
  have hopen : f ∈ openCalls events := by
    rw [h.openCalls]
    exact List.mem_reverse.2 hf
  rcases List.mem_filterMap.1 hopen with ⟨k, -, hk⟩
  rcases Option.bind_eq_some_iff.1 hk with ⟨function, hfunction, hk⟩
  rcases Option.bind_eq_some_iff.1 hfunction with ⟨e, he, hfunction⟩
  rcases Option.bind_eq_some_iff.1 hk with ⟨module, hmodule, hframe⟩
  rcases List.getElem?_eq_some_iff.1 he with ⟨hlt, rfl⟩
  refine ⟨events.take k, function, events.drop (k + 1), ?_, ?_⟩
  · have hcall : events[k] = .call function := by
      cases hevent : events[k] with
      | call other =>
        rw [hevent] at hfunction
        cases hfunction
        rfl
      | _ =>
        rw [hevent] at hfunction
        cases hfunction
    rw [← hcall, List.getElem_cons_drop, List.take_append_drop]
  · rw [frame?] at hframe
    split at hframe
    · cases hframe
      exact hmodule
    · cases hframe

/-- What a question about event `i` replays. -/
theorem holds_of_replay (h : (ofBytes bytes).replay i = .ok m) : m.Holds (upTo bytes i) := by
  by_cases hreplay : Replayable bytes i
  · rcases replay_of_replayable hreplay with ⟨m', hm', hholds⟩
    cases h.symm.trans hm'
    exact hholds
  · rcases exists_offence hreplay with ⟨k, hk, e, he, hfirst⟩
    rw [replay_of_offence hk he hfirst] at h
    cases h

section Decoded

variable (hdecode : Trace.decode bytes = .ok events)

include hdecode

theorem checkEnd_of_decode : (ofBytes bytes).checkEnd = .ok () := by
  rw [checkEnd_eq, (decode_eq_ok hdecode).1]

/-- A question about a readable trace replays its events up to a number. -/
theorem replay_of_decode (i : Nat) :
    (ofBytes bytes).replay i
      = Machine.start.run 0 ((Trace.walk bytes).steps.take (i + 1)) := by
  rw [replay_eq, checkEnd_of_decode hdecode]
  cases Machine.start.run 0 ((Trace.walk bytes).steps.take (i + 1)) with
  | error e => rfl
  | ok m => exact ite_self _

/-- After the last event nothing changes any more. -/
theorem stackAt_min (i : Nat) :
    (ofBytes bytes).stackAt (min i ((Trace.walk bytes).steps.length - 1))
      = (ofBytes bytes).stackAt i := by
  rw [stackAt, stackAt, replay_of_decode hdecode, replay_of_decode hdecode]
  by_cases hi : i ≤ (Trace.walk bytes).steps.length - 1
  · rw [Nat.min_eq_left hi]
  · rw [List.take_of_length_le (by omega), List.take_of_length_le (by omega)]

/-- The table of an open call is the first one of its module. -/
theorem table?_eq_tableOf? (hfirst : TablesFirst events) (hm : (ofBytes bytes).replay i = .ok m)
    {f : Frame} (hf : f ∈ m.frames) :
    m.table? f.module = (ofBytes bytes).tableOf? f.module := by
  rcases exists_call_of_mem_frames (holds_of_replay hm) hf with
    ⟨front, function, rest, hup, hactive⟩
  have hmodule : (Event.call function).module? = none := rfl
  have hcall : (Event.call function).payload? f.module (some f.module) = none := rfl
  -- no table of the module comes after the call, so all its payloads come before
  have hsplit : ∀ after, payloads f.module (some f.module) after = [] →
      payloads f.module none (front ++ .call function :: after)
        = payloads f.module none front := by
    intro after hafter
    rw [payloads_append, Option.or_none, hactive, payloads, hcall, hmodule, Option.none_or, hafter]
    exact List.append_nil _
  have hevents : events = front ++ .call function ::
      (rest ++ ((Trace.walk bytes).steps.drop (i + 1)).map (·.event)) := by
    rw [← List.cons_append, ← List.append_assoc, ← hup, upTo, ← List.map_append,
      List.take_append_drop]
    exact (decode_eq_ok hdecode).2.symm
  have hnone := (hevents ▸ hfirst).payloads_eq_nil hactive (Option.some_ne_none _)
  have hall : payloads f.module none events = payloads f.module none front := by
    rw [hevents]
    exact hsplit _ hnone
  have hrest : payloads f.module (some f.module) rest = [] := by
    rw [payloads_append] at hnone
    exact (List.append_eq_nil_iff.1 hnone).1
  have hlast : m.tables.lookup f.module = (payloads f.module none events).getLast? := by
    rw [replay_of_decode hdecode] at hm
    rw [Machine.lookup_run hm, ← upTo, hup, hall, ← hsplit rest hrest]
    exact Option.or_none
  have hhead : firstPayload? f.module none (ofBytes bytes).walk.steps
      = (payloads f.module none events).head? := by
    rw [firstPayload?_eq, ← (decode_eq_ok hdecode).2]
    rfl
  rw [Machine.table?, tableOf?, hlast, hhead]
  cases hpayloads : payloads f.module none events with
  | nil =>
    rw [checkEnd_of_decode hdecode]
    rfl
  | cons payload more =>
    have hone := hfirst.payloads_eq_singleton (hpayloads ▸ List.mem_cons_self)
    rw [hpayloads] at hone
    cases hone
    rfl

/-- A stack can be resolved at once or later. -/
theorem resolve_stackAt (hfirst : TablesFirst events) (i : Nat) :
    (ofBytes bytes).stackAt i >>= (ofBytes bytes).resolve = (ofBytes bytes).resolvedStackAt i := by
  rw [stackAt, resolvedStackAt]
  cases hm : (ofBytes bytes).replay i with
  | error e => rfl
  | ok m =>
    have hframes : m.stack.frames.mapM (fun f => do pure (f.resolve (← m.table? f.module)))
        = (m.stack.frames.mapM fun f => do
            pure (f.resolve (← (ofBytes bytes).tableOf? f.module)) :
              Except Error (List ResolvedFrame)) := by
      refine Except.mapM_congr fun f hf => ?_
      rw [table?_eq_tableOf? hdecode hfirst hm (List.mem_reverse.1 hf)]
    rw [Except.ok_bind, Except.ok_bind, hframes]
    rfl

end Decoded

end Recording

/-- A timeline that is moved to an event resolves the stack there, or at the last event if there are
not so many. -/
theorem Timeline.Sound.resolvedStack_goto {r : Recording} {room : Nat} {t : Timeline}
    (h : t.Sound r room) (i : Nat) :
    (t.goto i).2.resolvedStack.1 = r.stackAt (min i (t.length - 1)) >>= r.resolve := by
  obtain rfl := h.recording_eq
  have hcurrent := h.current
  have hindex : min i (t.length - 1) < t.length ∨ t.length = 0 ∧ min i (t.length - 1) = 0 := by
    omega
  have hmoved := h.moved hindex
  rcases hmoved.resolvedStack with ⟨t', hstack, -, -⟩
  exact congrArg Prod.fst hstack

namespace Recording

/-- In a trace whose tables come first, the stack at any event is resolved alike, and fails to be so
alike: at once, later on, or by a timeline after any other requests.  The traces that are recorded
are such, if their tables are short enough to be written. -/
theorem resolvedStack_agree :
    (∀ bytes events, Trace.decode bytes = .ok events → TablesFirst events → ∀ i,
      (ofBytes bytes).stackAt i >>= (ofBytes bytes).resolve = (ofBytes bytes).resolvedStackAt i ∧
        ∀ room, ∃ t, Timeline.ofRecording (ofBytes bytes) room = .ok t ∧
          ∀ requests, ((t.run requests).2.goto i).2.resolvedStack.1
            = (ofBytes bytes).resolvedStackAt i) ∧
      ∀ (σ : Type) (ask : Supplier σ) (supply : σ) (calls : List Call),
        (∀ o ∈ (Recorder.start supply).outcomes ask calls, o.Small) →
          ∃ events, Trace.decode ((Recorder.start supply).run ask calls).bytes = .ok events ∧
            TablesFirst events := by
  constructor
  · intro bytes events hdecode hfirst i
    have hresolve := resolve_stackAt hdecode hfirst i
    refine ⟨hresolve, fun room => ?_⟩
    have hcount : (ofBytes bytes).count = .ok (Trace.walk bytes).steps.length := by
      rw [count, checkEnd_of_decode hdecode]
      rfl
    have ht : Timeline.ofRecording (ofBytes bytes) room
        = .ok ⟨ofBytes bytes, 0, (Trace.walk bytes).steps.length, room, [], []⟩ := by
      rw [Timeline.ofRecording, hcount]
      rfl
    refine ⟨_, ht, fun requests => ?_⟩
    rcases (Timeline.sound_ofRecording ht).run requests with ⟨t, hrun, hsound, -⟩
    have hlength := hsound.count_eq
    rw [hcount] at hlength
    rw [hrun, hsound.resolvedStack_goto, ← Except.ok.inj hlength, stackAt_min hdecode, hresolve]
  · intro σ ask supply calls hsmall
    rcases bytes_start_run hsmall with ⟨hbytes, hfits⟩
    refine ⟨History.events ((Recorder.start supply).outcomes ask calls), ?_,
      History.tablesFirst_events _⟩
    rw [hbytes]
    exact Trace.decode_bytes hfits

/-- Module 1 has a table of two bytes that is no table, and module 2 has none.  Function 5 of the
first calls function 6 of the second, which returns. -/
def brokenTable : List UInt8 :=
  [0x01, 0xC1, 0, 0, 0, 2, 0x7B, 0x7D, 0x45, 0x02, 0x46, 0xC0, 0xC0]

theorem resolvedStack_agree_brokenTable :
    (∃ events, Trace.decode ((Recorder.start false).run Recorder.failsOnce
        [.enter 3 1, .enter 3 1, .block 300, .enter 4 2, .ret]).bytes = .ok events ∧
      TablesFirst events) ∧
      (ofBytes brokenTable).resolvedStackAt 4 = .error (.invalidTable .syntaxError) ∧
      (ofBytes brokenTable).stackAt 4 >>= (ofBytes brokenTable).resolve
        = .error (.invalidTable .syntaxError) ∧
      ∃ t, Timeline.ofRecording (ofBytes brokenTable) 1 = .ok t ∧
        ((t.run [.forward, .stack]).2.goto 4).2.resolvedStack.1
            = .error (.invalidTable .syntaxError) ∧
          ((t.run [.forward, .stack]).2.goto 6).2.resolvedStack.1 = .ok ⟨[]⟩ := by
  have hdecode : Trace.decode brokenTable
      = .ok [.setModule 1, .table [0x7B, 0x7D], .call 5, .setModule 2, .call 6, .ret, .ret] := rfl
  have hfirst : TablesFirst
      [.setModule 1, .table [0x7B, 0x7D], .call 5, .setModule 2, .call 6, .ret, .ret] := by
    decide
  have hopen : (ofBytes brokenTable).resolvedStackAt 4 = .error (.invalidTable .syntaxError) := rfl
  have hclosed : (ofBytes brokenTable).resolvedStackAt 6 = .ok ⟨[]⟩ := rfl
  rcases resolvedStack_agree.1 _ _ hdecode hfirst 4 with ⟨hresolve, htimeline⟩
  rcases resolvedStack_agree.1 _ _ hdecode hfirst 6 with ⟨-, htimeline'⟩
  rcases htimeline 1 with ⟨t, ht, hanswers⟩
  rcases htimeline' 1 with ⟨t', ht', hanswers'⟩
  cases ht.symm.trans ht'
  have hsmall : ∀ o ∈ (Recorder.start false).outcomes Recorder.failsOnce
      [.enter 3 1, .enter 3 1, .block 300, .enter 4 2, .ret], o.Small := by
    intro o ho m table hanswer
    rcases Recorder.answered_of_mem ho _ hanswer with ⟨asked, htable⟩
    cases asked <;> cases htable
    decide
  exact ⟨resolvedStack_agree.2 Bool Recorder.failsOnce false _ hsmall, hopen,
    hresolve.trans hopen, t, ht, (hanswers _).trans hopen, (hanswers' _).trans hclosed⟩

end Recording

end Retrace
