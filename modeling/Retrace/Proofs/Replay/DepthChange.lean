import Retrace.Proofs.Replay.Machine
import Retrace.Proofs.Replay.Timeline

/-!
# DepthChange — going back to where another number of calls was open

One event opens a call, ends one or leaves their number alone, and if a question about an event has
an answer, so have the questions about all events before it.

* `Recording.depthAt` — how many calls are open after an event;
* `Recording.depthAt_pred` — what that says about the event before;
* `Recording.changeBefore_eq` — the search for another depth ends at the last event with one, which
  is a call apart, or at the first event of all;
* `Timeline.backToDepthChange_run` — so does that of a timeline, wherever it has been moved.
-/

namespace Retrace

/-- An event changes the number of open calls by one at most. -/
theorem Machine.length_frames_apply {m m' : Machine} {index offset : Nat} {e : Event}
    (h : m.apply index offset e = .ok m') :
    m'.frames.length ≤ m.frames.length + 1 ∧ m.frames.length ≤ m'.frames.length + 1 := by
  cases e with
  | setModule id =>
    cases h
    exact ⟨Nat.le_succ _, Nat.le_succ _⟩
  | table payload =>
    rcases Except.bind_eq_ok.1 h with ⟨id, -, hm'⟩
    cases hm'
    exact ⟨Nat.le_succ _, Nat.le_succ _⟩
  | call function =>
    rcases Except.bind_eq_ok.1 h with ⟨id, -, hm'⟩
    cases hm'
    exact ⟨Nat.le_refl _, Nat.le_succ_of_le (Nat.le_succ _)⟩
  | block id =>
    rcases m with ⟨active, _ | ⟨top, frames⟩, tables⟩ <;> cases h <;>
      exact ⟨Nat.le_succ _, Nat.le_succ _⟩
  | ret =>
    rcases m with ⟨active, _ | ⟨top, frames⟩, tables⟩ <;> cases h
    exact ⟨Nat.le_succ_of_le (Nat.le_succ _), Nat.le_refl _⟩

namespace Recording

/-- How many calls are open after an event. -/
def depthAt (r : Recording) (i : Nat) : Except Error Nat := (r.stackAt i).map Stack.depth

variable {bytes : List UInt8} {r : Recording} {i d : Nat}

theorem depthAt_of_stackAt {s : Stack} (h : r.stackAt i = .ok s) : r.depthAt i = .ok s.depth := by
  rw [depthAt, h]
  rfl

theorem exists_stackAt_of_depthAt (h : r.depthAt i = .ok d) :
    ∃ s, r.stackAt i = .ok s ∧ s.depth = d := by
  rw [depthAt] at h
  cases hs : r.stackAt i with
  | error e =>
    rw [hs] at h
    cases h
  | ok s =>
    rw [hs] at h
    exact ⟨s, rfl, Except.ok.inj h⟩

theorem depthAt_of_replay {m : Machine} (h : r.replay i = .ok m) :
    r.depthAt i = .ok m.frames.length := by
  have hdepth : m.stack.depth = m.frames.length := List.length_reverse
  rw [depthAt_of_stackAt (stackAt_eq_ok.2 ⟨m, h, rfl⟩), hdepth]

theorem exists_replay_of_depthAt (h : r.depthAt i = .ok d) :
    ∃ m, r.replay i = .ok m ∧ m.frames.length = d := by
  rcases exists_stackAt_of_depthAt h with ⟨s, hs, rfl⟩
  rcases stackAt_eq_ok.1 hs with ⟨m, hm, rfl⟩
  exact ⟨m, hm, List.length_reverse.symm⟩

/-- If an event can be replayed, so can the one before it, and the machine there is at most one
event behind. -/
theorem exists_replay_pred {m' : Machine} (h : (ofBytes bytes).replay (i + 1) = .ok m') :
    ∃ m, (ofBytes bytes).replay i = .ok m ∧
      (m' = m ∨ ∃ index offset e, m.apply index offset e = .ok m') := by
  rcases replay_eq_ok.1 h with ⟨hrun, hend⟩
  by_cases hi : i + 1 < (Trace.walk bytes).steps.length
  · rw [← List.take_append_getElem hi, Machine.run_append] at hrun
    rcases Except.bind_eq_ok.1 hrun with ⟨m, hm, hlast⟩
    rw [Machine.run] at hlast
    rcases Except.bind_eq_ok.1 hlast with ⟨m'', happly, hm'⟩
    cases hm'
    exact ⟨m, replay_eq_ok.2 ⟨hm, .inl (Nat.lt_of_succ_lt hi)⟩, .inr ⟨_, _, _, happly⟩⟩
  · -- the event before is the last one already, or there is none
    have htake : (Trace.walk bytes).steps.take (i + 1 + 1)
        = (Trace.walk bytes).steps.take (i + 1) := by
      rw [List.take_of_length_le (by omega), List.take_of_length_le (by omega)]
    rw [htake] at hrun
    exact ⟨m', replay_eq_ok.2 ⟨hrun, .inr (hend.resolve_left hi)⟩, .inl rfl⟩

/-- Neighbouring events are a call apart at most. -/
theorem depthAt_pred (h : (ofBytes bytes).depthAt (i + 1) = .ok d) :
    ∃ d', (ofBytes bytes).depthAt i = .ok d' ∧ d ≤ d' + 1 ∧ d' ≤ d + 1 := by
  rcases exists_replay_of_depthAt h with ⟨m', hm', rfl⟩
  rcases exists_replay_pred hm' with ⟨m, hm, rfl | ⟨index, offset, e, happly⟩⟩
  · exact ⟨_, depthAt_of_replay hm, Nat.le_succ _, Nat.le_succ _⟩
  · exact ⟨_, depthAt_of_replay hm, Machine.length_frames_apply happly⟩

/-- The search for another depth than the one open at the event it starts from ends at the last
event with one, a single call apart, or at the first event of all. -/
theorem changeBefore_eq {c depth : Nat} (h : (ofBytes bytes).depthAt c = .ok depth) :
    (∃ j < c, ∃ d, (ofBytes bytes).depthAt j = .ok d ∧ (d = depth + 1 ∨ depth = d + 1) ∧
        (∀ k, j < k → k < c → (ofBytes bytes).depthAt k = .ok depth) ∧
        (ofBytes bytes).changeBefore depth c = (.ok (some j), j)) ∨
      ((∀ j < c, (ofBytes bytes).depthAt j = .ok depth) ∧
        (ofBytes bytes).changeBefore depth c = (.ok none, 0)) := by
  induction c with
  | zero => exact .inr ⟨fun j hj => absurd hj (Nat.not_lt_zero j), rfl⟩
  | succ c ih =>
    rcases depthAt_pred h with ⟨d, hd, hup, hdown⟩
    rcases exists_stackAt_of_depthAt hd with ⟨s, hs, hdepth⟩
    by_cases hsame : d = depth
    · -- nothing changes here, so the search goes on
      have hgoes : (ofBytes bytes).changeBefore depth (c + 1)
          = (ofBytes bytes).changeBefore depth c := by
        rw [changeBefore, hs]
        simp only [hdepth, hsame, ne_eq, not_true_eq_false, if_false]
      rw [hsame] at hd
      rw [hgoes]
      rcases ih hd with ⟨j, hj, d', hd', hone, hbetween, hfound⟩ | ⟨hall, hnone⟩
      · refine .inl ⟨j, Nat.lt_succ_of_lt hj, d', hd', hone, fun k hjk hk => ?_, hfound⟩
        rcases Nat.lt_succ_iff_lt_or_eq.1 hk with hlt | rfl
        · exact hbetween k hjk hlt
        · exact hd
      · refine .inr ⟨fun j hj => ?_, hnone⟩
        rcases Nat.lt_succ_iff_lt_or_eq.1 hj with hlt | rfl
        · exact hall j hlt
        · exact hd
    · have hfound : (ofBytes bytes).changeBefore depth (c + 1) = (.ok (some c), c) := by
        rw [changeBefore, hs]
        simp only [hdepth, ne_eq, hsame, not_false_eq_true, if_true]
      refine .inl ⟨c, Nat.lt_succ_self c, d, hd, by omega, fun k hck hk => by omega, hfound⟩

end Recording

namespace Timeline

open Recording (ofBytes)

variable {bytes : List UInt8} {room : Nat} {t₀ t : Timeline}

/-- Wherever a timeline of a recording has been moved, and whatever it keeps: if the stack there
cannot be told, going back to another depth reports why and stays there.  Otherwise it succeeds.  It
moves to the last event before at which the depth is another one, and then the depths are a call
apart, or it says that there is none and moves to the first event. -/
theorem backToDepthChange_run (h : ofRecording (ofBytes bytes) room = .ok t₀)
    (requests : List Request) (hrun : (t₀.run requests).2 = t) :
    match (ofBytes bytes).stackAt t.current with
    | .error e => t.backToDepthChange.1 = .error e ∧ t.backToDepthChange.2.current = t.current
    | .ok s =>
      (∃ j < t.current, ∃ d, (ofBytes bytes).depthAt j = .ok d ∧
          (d = s.depth + 1 ∨ s.depth = d + 1) ∧
          (∀ k, j < k → k < t.current → (ofBytes bytes).depthAt k = .ok s.depth) ∧
          t.backToDepthChange.1 = .ok (some j) ∧ t.backToDepthChange.2.current = j) ∨
        ((∀ j < t.current, (ofBytes bytes).depthAt j = .ok s.depth) ∧
          t.backToDepthChange.1 = .ok none ∧ t.backToDepthChange.2.current = 0) := by
  rcases (sound_ofRecording h).run requests with ⟨t', hanswers, hsound, -⟩
  have hreached : t' = t := (congrArg Prod.snd hanswers).symm.trans hrun
  subst hreached
  -- nothing that is kept shows, so the search is the one through the recording
  rcases hsound.backToDepthChange with ⟨last, hback, -, hlast⟩
  have hcurrent : last.current = t'.cursor.backToDepthChange.2.current :=
    congrArg Cursor.current hlast
  have hstack : t'.cursor.stack = (ofBytes bytes).stackAt t'.current := by
    rw [Cursor.stack, cursor, hsound.recording_eq]
  rw [hback, hcurrent, Cursor.backToDepthChange, hstack]
  cases hs : (ofBytes bytes).stackAt t'.current with
  | error e => exact ⟨rfl, rfl⟩
  | ok s =>
    have hsearch : t'.cursor.recording.changeBefore s.depth t'.cursor.current
        = (ofBytes bytes).changeBefore s.depth t'.current := by
      rw [cursor, hsound.recording_eq]
    simp only [hsearch]
    rcases Recording.changeBefore_eq (Recording.depthAt_of_stackAt hs) with
      ⟨j, hj, d, hd, hone, hbetween, hfound⟩ | ⟨hall, hnone⟩
    · rw [hfound]
      exact .inl ⟨j, hj, d, hd, hone, hbetween, rfl, rfl⟩
    · rw [hnone]
      exact .inr ⟨hall, rfl, rfl⟩

/-- In a trace with one return too many, with room for one stack: another depth than at event 4 was
open at event 2 last, which is not the event before, and at event 8 there is no depth. -/
theorem backToDepthChange_run_overturnedTrace :
    ∃ t, ofRecording (ofBytes overturnedTrace) 1 = .ok t ∧
      (t.run [.goto 6, .stack, .goto 4]).2.backToDepthChange.1 = .ok (some 2) ∧
      (t.run [.goto 6, .stack, .goto 4]).2.backToDepthChange.2.current = 2 ∧
      (t.run [.goto 8, .stack]).2.backToDepthChange.1 = .error (.unbalancedReturn 8) ∧
      (t.run [.goto 8, .stack]).2.backToDepthChange.2.current = 8 := by
  have h : ofRecording (ofBytes overturnedTrace) 1
      = .ok ⟨ofBytes overturnedTrace, 0, 9, 1, [], []⟩ := rfl
  have htwo : (ofBytes overturnedTrace).depthAt 2 = .ok 1 := rfl
  have hthree : (ofBytes overturnedTrace).depthAt 3 = .ok 2 := rfl
  refine ⟨_, h, ?_⟩
  rcases backToDepthChange_run h [.goto 8, .stack] rfl with ⟨herror, hstays⟩
  rcases backToDepthChange_run h [.goto 6, .stack, .goto 4] rfl with
    ⟨j, hj, d, hd, hone, hbetween, hresult, hcurrent⟩ | ⟨hall, -⟩
  · have hj : j < 4 := hj
    have hthird : j ≠ 3 := by
      rintro rfl
      cases hthree.symm.trans hd
      exact absurd hone (by decide)
    have hsecond : ¬ j < 2 := by
      intro hlt
      have hsame : (ofBytes overturnedTrace).depthAt 2 = .ok 2 := hbetween 2 hlt (by decide)
      cases htwo.symm.trans hsame
    obtain rfl : j = 2 := by omega
    exact ⟨hresult, hcurrent, herror, hstays⟩
  · have hsame : (ofBytes overturnedTrace).depthAt 2 = .ok 2 := hall 2 (by decide)
    cases htwo.symm.trans hsame

end Timeline

end Retrace
