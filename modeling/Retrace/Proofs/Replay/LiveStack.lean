import Retrace.Proofs.Replay.Machine
import Retrace.Proofs.Trace.History

/-!
# LiveStack — replay goes through the stacks that the program went through

* `Call.live?` — what a call does to the open calls of the program, the innermost of them first;
* `History.live?` — the open calls after a history, if no return in it came without a call;
* `Outcome.run_events`, `History.run_events` — a machine that replays what a call or a history has
  written goes from the one stack to the other;
* `Recording.stackAt_run` — the trace of successful calls, asked for the stack after each of them.
-/

namespace Retrace

/-! ## The live stack -/

/-- What a call does to the open calls, the innermost first; a return needs one. -/
def Call.live? (frames : List Frame) : Call → Option (List Frame)
  | .enter m f => some (⟨m, f, none⟩ :: frames)
  | .block id =>
    match frames with
    | top :: rest => some ({ top with block := some id } :: rest)
    | [] => some []
  | .ret =>
    match frames with
    | _ :: rest => some rest
    | [] => none

/-- The open calls after some more calls. -/
def Call.liveAfter? (frames : List Frame) (calls : List Call) : Option (List Frame) :=
  calls.foldlM Call.live? frames

/-- A call that fails does not happen. -/
def Outcome.live? (frames : List Frame) (o : Outcome) : Option (List Frame) :=
  match o.result with
  | .ok () => o.call.live? frames
  | .error _ => some frames

/-- The open calls after a history. -/
def History.live? (frames : List Frame) (history : List Outcome) : Option (List Frame) :=
  history.foldlM Outcome.live? frames

/-- The tables in a trace after one more call, given the modules entered before. -/
def Outcome.putTables (entered : List Nat) (o : Outcome) (tables : List (Nat × List UInt8)) :
    List (Nat × List UInt8) :=
  match o.entered?, o.table? with
  | some m, some table =>
    if m ∈ entered then tables else Machine.putTable m table.toBytes tables
  | _, _ => tables

/-- The tables in a trace after some more calls. -/
def History.putTables (before : List Nat) (tables : List (Nat × List UInt8)) :
    List Outcome → List (Nat × List UInt8)
  | [] => tables
  | o :: rest => putTables (before ++ o.entered?.toList) (o.putTables before tables) rest

/-! ## Replaying one call -/

namespace Outcome

variable {m : Machine} {entered : List Nat} {o : Outcome}

theorem run_events_error (hactive : m.active = entered.getLast?) (c : Call) (e : Error)
    (answers : List (Nat × Except Error Table)) (index offset : Nat) :
    m.run index (Trace.stepsFrom offset ((⟨c, .error e, answers⟩ : Outcome).events entered))
      = .ok ⟨(entered ++ (⟨c, .error e, answers⟩ : Outcome).entered?.toList).getLast?, m.frames,
          (⟨c, .error e, answers⟩ : Outcome).putTables entered m.tables⟩ := by
  have hevents : (⟨c, .error e, answers⟩ : Outcome).events entered = [] := by
    cases c <;> rfl
  have hentered : (⟨c, .error e, answers⟩ : Outcome).entered? = none := by
    cases c <;> rfl
  rw [hevents, putTables, hentered, Option.toList_none, List.append_nil, ← hactive]
  rfl

theorem run_events_enter (hactive : m.active = entered.getLast?) (mod f : Nat)
    (answers : List (Nat × Except Error Table)) (index offset : Nat) :
    m.run index
        (Trace.stepsFrom offset ((⟨.enter mod f, .ok (), answers⟩ : Outcome).events entered))
      = .ok ⟨(entered ++ [mod]).getLast?, ⟨mod, f, none⟩ :: m.frames,
          (⟨.enter mod f, .ok (), answers⟩ : Outcome).putTables entered m.tables⟩ := by
  rcases m with ⟨active, frames, tables⟩
  rw [List.getLast?_concat]
  -- once the module is active and its table is in place, the call opens a frame
  have hcall : ∀ index offset tables,
      (⟨some mod, frames, tables⟩ : Machine).run index (Trace.stepsFrom offset [.call f])
        = .ok ⟨some mod, ⟨mod, f, none⟩ :: frames, tables⟩ := by
    intro index offset tables
    rw [Machine.run_event]
    rfl
  simp only [events, putTables, entered?]
  by_cases hlast : entered.getLast? = some mod
  -- only the call is written
  · have hmem : mod ∈ entered := List.mem_of_getLast? hlast
    have hmod : active = some mod := hactive.trans hlast
    rw [if_pos hlast, if_pos hmem, hmod, List.nil_append, List.nil_append, hcall]
    cases table? ⟨.enter mod f, .ok (), answers⟩ <;> simp [hmem]
  · rw [if_neg hlast]
    by_cases hmem : mod ∈ entered
    -- the module is named first
    · rw [if_pos hmem, List.append_nil, List.cons_append, List.nil_append, Machine.run_cons rfl,
        hcall]
      cases table? ⟨.enter mod f, .ok (), answers⟩ <;> simp [hmem]
    -- the module is named, and its table follows if there is one
    · rw [if_neg hmem]
      cases table? ⟨.enter mod f, .ok (), answers⟩ with
      | none =>
        rw [Option.toList_none, List.map_nil, List.append_nil, List.cons_append, List.nil_append,
          Machine.run_cons rfl, hcall]
      | some table =>
        rw [Option.toList_some, List.map_singleton, List.cons_append, List.cons_append,
          List.nil_append, Machine.run_cons rfl, List.cons_append, List.nil_append,
          Machine.run_cons rfl, hcall]
        simp [hmem]

/-- Replaying what a call has written does to the machine what the call did to the program. -/
theorem run_events (hactive : m.active = entered.getLast?) (o : Outcome) (index offset : Nat) :
    m.run index (Trace.stepsFrom offset (o.events entered))
      = match o.live? m.frames with
        | some frames =>
          .ok ⟨(entered ++ o.entered?.toList).getLast?, frames, o.putTables entered m.tables⟩
        | none => .error (.unbalancedReturn index) := by
  rcases o with ⟨c, e | _, answers⟩
  · exact run_events_error hactive c e answers index offset
  · cases c with
    | enter mod f => exact run_events_enter hactive mod f answers index offset
    | block id =>
      have hactive' : m.active = (entered ++ []).getLast? := by rw [List.append_nil, hactive]
      -- with no open call, the block is nowhere to be written
      rcases m with ⟨active, _ | ⟨top, rest⟩, tables⟩
      · simp only [events, Machine.run_event, live?, Call.live?, entered?, putTables,
          Option.toList_none, ← hactive']
        rfl
      · simp only [events, Machine.run_event, live?, Call.live?, entered?, putTables,
          Option.toList_none, ← hactive']
        rfl
    | ret =>
      have hactive' : m.active = (entered ++ []).getLast? := by rw [List.append_nil, hactive]
      -- with no open call, the return is the error
      rcases m with ⟨active, _ | ⟨top, rest⟩, tables⟩
      · simp only [events, Machine.run_event, live?, Call.live?]
        rfl
      · simp only [events, Machine.run_event, live?, Call.live?, entered?, putTables,
          Option.toList_none, ← hactive']
        rfl

end Outcome

/-! ## Replaying a history -/

namespace History

variable {m : Machine} {before : List Nat} {history : List Outcome} {frames : List Frame}

/-- Replaying what a history has written leads to the stack that the history leads to. -/
theorem run_events (hactive : m.active = before.getLast?)
    (hlive : live? m.frames history = some frames) (index offset : Nat) :
    m.run index (Trace.stepsFrom offset (eventsFrom before history))
      = .ok ⟨(before ++ entered history).getLast?, frames, putTables before m.tables history⟩ := by
  induction history generalizing m before index offset with
  | nil =>
    cases hlive
    rw [entered, List.filterMap_nil, List.append_nil, ← hactive]
    rfl
  | cons o history ih =>
    -- one call takes both from `frames` to `frames'`
    rcases Option.bind_eq_some_iff.1 hlive with ⟨frames', hframes, hrest⟩
    have hstep := Outcome.run_events hactive o index offset
    rw [hframes] at hstep
    rw [eventsFrom, Trace.stepsFrom_append, Machine.run_append, hstep, Except.ok_bind,
      entered_cons, ← List.append_assoc]
    exact ih (m := ⟨(before ++ o.entered?.toList).getLast?, frames', o.putTables before m.tables⟩)
      rfl hrest _ _

/-- A history without such a return can be replayed up to any event. -/
theorem exists_run_take (hlive : live? [] history = some frames) (n : Nat) :
    ∃ m, Machine.start.run 0 (Trace.stepsFrom 0 ((events history).take n)) = .ok m := by
  have hall : Machine.start.run 0 (Trace.stepsFrom 0 (events history)) = .ok _ :=
    run_events rfl hlive 0 0
  rw [← List.take_append_drop n (events history), Trace.stepsFrom_append] at hall
  exact Machine.run_prefix hall

/-- A return that comes without a call stops the replay where it stands. -/
theorem run_events_unbalanced (hactive : m.active = before.getLast?)
    (hlive : live? m.frames history = some []) {o : Outcome} (hret : o.call = .ret)
    (hok : o.result = .ok ()) (index offset : Nat) (more : List Event) :
    m.run index (Trace.stepsFrom offset (eventsFrom before (history ++ [o]) ++ more))
      = .error (.unbalancedReturn (index + (eventsFrom before history).length)) := by
  have hnone : o.live? [] = none := by
    rw [Outcome.live?, hok, hret]
    rfl
  rw [eventsFrom_append, Trace.stepsFrom_append, Trace.stepsFrom_append]
  refine Machine.run_error ?_ _
  rw [Machine.run_append, run_events hactive hlive, Except.ok_bind, Trace.length_stepsFrom,
    eventsFrom, eventsFrom, List.append_nil, Outcome.run_events rfl, hnone]

theorem live?_of_ok (h : ∀ o ∈ history, o.result = .ok ()) (frames : List Frame) :
    live? frames history = Call.liveAfter? frames (history.map Outcome.call) := by
  induction history generalizing frames with
  | nil => rfl
  | cons o history ih =>
    have ho : o.live? frames = o.call.live? frames := by
      rw [Outcome.live?, h o List.mem_cons_self]
    have hrest := fun frames => ih (fun o' ho' => h o' (List.mem_cons_of_mem o ho')) frames
    simp only [live?, Call.liveAfter?, List.map_cons, List.foldlM_cons, ho] at hrest ⊢
    cases o.call.live? frames with
    | none => rfl
    | some frames' => exact hrest frames'

end History

/-! ## Asking a trace -/

/-- The number of events that a recorder has written. -/
def Recorder.written {σ : Type} (r : Recorder σ) : Nat := (Trace.walk r.bytes).steps.length

namespace Recording

variable {σ : Type} {ask : Supplier σ} {supply : σ} {calls : List Call}

theorem bytes_start_run (hsmall : ∀ o ∈ (Recorder.start supply).outcomes ask calls, o.Small) :
    ((Recorder.start supply).run ask calls).bytes
        = (History.events ((Recorder.start supply).outcomes ask calls)).flatMap Event.bytes ∧
      ∀ e ∈ History.events ((Recorder.start supply).outcomes ask calls), e.Fits :=
  (Recorder.follows_start supply).run hsmall

theorem written_start_run (hsmall : ∀ o ∈ (Recorder.start supply).outcomes ask calls, o.Small) :
    ((Recorder.start supply).run ask calls).written
      = (History.events ((Recorder.start supply).outcomes ask calls)).length := by
  rcases bytes_start_run hsmall with ⟨hbytes, hfits⟩
  rw [Recorder.written, hbytes, Trace.walk_bytes hfits, Trace.length_stepsFrom]

/-- A question about a recorded trace replays the first of the events that its calls stand for. -/
theorem replay_run (hsmall : ∀ o ∈ (Recorder.start supply).outcomes ask calls, o.Small)
    (i : Nat) :
    (ofBytes ((Recorder.start supply).run ask calls).bytes).replay i
      = Machine.start.run 0 (Trace.stepsFrom 0
          ((History.events ((Recorder.start supply).outcomes ask calls)).take (i + 1))) := by
  rcases bytes_start_run hsmall with ⟨hbytes, hfits⟩
  rw [hbytes, replay_bytes hfits]

/-- The events of a run begin with the events of its first calls. -/
theorem events_append (ask : Supplier σ) (supply : σ) (before after : List Call) :
    History.events ((Recorder.start supply).outcomes ask (before ++ after))
      = History.events ((Recorder.start supply).outcomes ask before)
        ++ History.eventsFrom (History.entered ((Recorder.start supply).outcomes ask before))
            (((Recorder.start supply).run ask before).outcomes ask after) := by
  rw [Recorder.outcomes_append, History.events, History.eventsFrom_append, List.nil_append]
  rfl

section Succeeding

variable {before after : List Call} {frames : List Frame}
  (hok : ∀ o ∈ (Recorder.start supply).outcomes ask calls, o.result = .ok ())

include hok

theorem small_of_ok : ∀ o ∈ (Recorder.start supply).outcomes ask calls, o.Small :=
  fun o ho => Recorder.small_of_mem_outcomes ho (hok o ho)

theorem ok_of_append (hcalls : calls = before ++ after) :
    ∀ o ∈ (Recorder.start supply).outcomes ask before, o.result = .ok () := by
  intro o ho
  refine hok o ?_
  rw [hcalls, Recorder.outcomes_append]
  exact List.mem_append_left _ ho

theorem live?_outcomes (hlive : Call.liveAfter? [] calls = some frames) :
    History.live? [] ((Recorder.start supply).outcomes ask calls) = some frames := by
  rw [History.live?_of_ok hok, Recorder.map_call_outcomes, hlive]

/-- The stack after a call, when no return so far came without a call. -/
theorem stackAt_of_live (hcalls : calls = before ++ after)
    (hlive : Call.liveAfter? [] before = some frames) {i : Nat}
    (hi : i + 1 = ((Recorder.start supply).run ask before).written) :
    (ofBytes ((Recorder.start supply).run ask calls).bytes).stackAt i = .ok ⟨frames.reverse⟩ := by
  have hbefore := ok_of_append hok hcalls
  rw [written_start_run (small_of_ok hbefore)] at hi
  have htake : (History.events ((Recorder.start supply).outcomes ask calls)).take (i + 1)
      = History.events ((Recorder.start supply).outcomes ask before) := by
    rw [hcalls, events_append]
    exact List.take_left' hi.symm
  rw [stackAt, replay_run (small_of_ok hok), htake, History.events,
    History.run_events rfl (live?_outcomes hbefore hlive), Except.ok_bind]
  rfl

/-- As long as no return came without a call, there is a stack. -/
theorem exists_stackAt (hcalls : calls = before ++ after)
    (hlive : Call.liveAfter? [] before = some frames) {i : Nat}
    (hi : i < ((Recorder.start supply).run ask before).written) :
    ∃ stack, (ofBytes ((Recorder.start supply).run ask calls).bytes).stackAt i = .ok stack := by
  have hbefore := ok_of_append hok hcalls
  rw [written_start_run (small_of_ok hbefore)] at hi
  have htake : (History.events ((Recorder.start supply).outcomes ask calls)).take (i + 1)
      = (History.events ((Recorder.start supply).outcomes ask before)).take (i + 1) := by
    rw [hcalls, events_append]
    exact List.take_append_of_le_length hi
  rcases History.exists_run_take (live?_outcomes hbefore hlive) (i + 1) with ⟨m, hm⟩
  refine ⟨m.stack, ?_⟩
  rw [stackAt, replay_run (small_of_ok hok), htake, hm]
  rfl

/-- A return that comes without a call is reported from its own event on. -/
theorem stackAt_of_unbalanced (hcalls : calls = before ++ [.ret] ++ after)
    (hlive : Call.liveAfter? [] before = some []) {index i : Nat}
    (hindex : index = ((Recorder.start supply).run ask before).written) (hi : index ≤ i) :
    (ofBytes ((Recorder.start supply).run ask calls).bytes).stackAt i
      = .error (.unbalancedReturn index) := by
  have hret := ok_of_append hok hcalls
  have hbefore := ok_of_append hret rfl
  rw [written_start_run (small_of_ok hbefore)] at hindex
  -- the trace: what came before the return, the return, and the rest
  have hlast : (Recorder.start supply).outcomes ask (before ++ [.ret])
      = (Recorder.start supply).outcomes ask before
        ++ [((Recorder.start supply).run ask before).outcome ask .ret] :=
    Recorder.outcomes_append ask _ before [.ret]
  have hresult : (((Recorder.start supply).run ask before).outcome ask .ret).result = .ok () := rfl
  have hlength : (History.events ((Recorder.start supply).outcomes ask (before ++ [.ret]))).length
      = index + 1 := by
    rw [events_append, List.length_append, hindex]
    rfl
  have hrest : i + 1 - (index + 1) = i - index := by omega
  have htake : (History.events ((Recorder.start supply).outcomes ask calls)).take (i + 1)
      = History.events ((Recorder.start supply).outcomes ask (before ++ [.ret]))
        ++ (History.eventsFrom
            (History.entered ((Recorder.start supply).outcomes ask (before ++ [.ret])))
            (((Recorder.start supply).run ask (before ++ [.ret])).outcomes ask after)).take
              (i - index) := by
    rw [hcalls, events_append, List.take_append, List.take_of_length_le (by omega), hlength, hrest]
  rw [stackAt, replay_run (small_of_ok hok), htake, hlast, History.events,
    History.run_events_unbalanced rfl (live?_outcomes hbefore hlive) rfl hresult]
  rw [Nat.zero_add, hindex]
  rfl

/-- A return writes one event. -/
theorem written_ret (hcalls : calls = before ++ [.ret] ++ after) :
    ((Recorder.start supply).run ask (before ++ [.ret])).written
      = ((Recorder.start supply).run ask before).written + 1 := by
  have hret := ok_of_append hok hcalls
  have hbefore := ok_of_append hret rfl
  rw [written_start_run (small_of_ok hret), written_start_run (small_of_ok hbefore), events_append,
    List.length_append]
  rfl

end Succeeding

/-- The trace of calls that all succeed, asked for the stack as it was after a call, gives the stack
that the program had then.  The first return without a call is reported by every question about its
time or later, and by no other. -/
theorem stackAt_run (ask : Supplier σ) (supply : σ) (calls : List Call)
    (hok : ∀ o ∈ (Recorder.start supply).outcomes ask calls, o.result = .ok ()) :
    (∀ k i frames, Call.liveAfter? [] (calls.take k) = some frames →
        i + 1 = ((Recorder.start supply).run ask (calls.take k)).written →
        (ofBytes ((Recorder.start supply).run ask calls).bytes).stackAt i
          = .ok ⟨frames.reverse⟩) ∧
      ∀ j index, calls[j]? = some .ret → Call.liveAfter? [] (calls.take j) = some [] →
        index + 1 = ((Recorder.start supply).run ask (calls.take (j + 1))).written →
        ∀ i,
          (index ≤ i →
            (ofBytes ((Recorder.start supply).run ask calls).bytes).stackAt i
              = .error (.unbalancedReturn index)) ∧
            (i < index →
              ∃ stack, (ofBytes ((Recorder.start supply).run ask calls).bytes).stackAt i
                = .ok stack) := by
  constructor
  · intro k i frames hlive hi
    exact stackAt_of_live hok (List.take_append_drop k calls).symm hlive hi
  · intro j index hj hlive hindex i
    have htake : calls.take (j + 1) = calls.take j ++ [.ret] := by
      rw [List.take_add_one, hj]
      rfl
    have hcalls : calls = calls.take j ++ [.ret] ++ calls.drop (j + 1) := by
      rw [← htake, List.take_append_drop]
    rw [htake, written_ret hok hcalls, Nat.add_right_cancel_iff] at hindex
    constructor
    · exact stackAt_of_unbalanced hok hcalls hlive hindex
    · intro hi
      have hbefore : calls = calls.take j ++ calls.drop j := (List.take_append_drop j calls).symm
      exact exists_stackAt hok hbefore hlive (hindex ▸ hi)

/-- A supplier of tables that say nothing. -/
def emptyTables : Supplier Unit := fun _ _ => (.ok ⟨[], []⟩, ())

theorem stackAt_run_twoModules :
    (ofBytes ((Recorder.start ()).run emptyTables
        [.enter 3 1, .block 9, .enter 4 2, .ret, .block 8, .ret, .ret]).bytes).stackAt 8
        = .ok ⟨[⟨3, 1, some 8⟩]⟩ ∧
      (ofBytes ((Recorder.start ()).run emptyTables
        [.enter 3 1, .block 9, .enter 4 2, .ret, .block 8, .ret, .ret]).bytes).stackAt 99
        = .error (.unbalancedReturn 10) := by
  have hok : ∀ o ∈ (Recorder.start ()).outcomes emptyTables
      [.enter 3 1, .block 9, .enter 4 2, .ret, .block 8, .ret, .ret], o.result = .ok () := by
    have hresults : ((Recorder.start ()).outcomes emptyTables
        [.enter 3 1, .block 9, .enter 4 2, .ret, .block 8, .ret, .ret]).map Outcome.result
        = List.replicate 7 (.ok ()) := rfl
    intro o ho
    have hmem := List.mem_map_of_mem (f := Outcome.result) ho
    rw [hresults] at hmem
    exact List.eq_of_mem_replicate hmem
  rcases stackAt_run emptyTables () _ hok with ⟨hstack, hunbalanced⟩
  exact ⟨hstack 5 8 [⟨3, 1, some 8⟩] rfl (by decide +kernel),
    (hunbalanced 6 10 rfl rfl (by decide +kernel) 99).1 (by decide)⟩

end Recording

end Retrace
