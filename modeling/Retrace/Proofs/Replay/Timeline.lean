import Retrace.Proofs.Result
import Retrace.Replay.Timeline

/-!
# Timeline — what is kept never shows

A timeline answers every request as one would that keeps nothing and replays the trace each time.

* `Timeline.Request`, `Timeline.run` — what can be asked of a timeline, and the answers to some
  requests one after another;
* `Cursor` — a position in a recording, with nothing kept, that answers the same requests;
* `Timeline.Sound` — the stacks kept are those of their events, each is queued once, and there are
  no more of them than there is room for;
* `Timeline.Sound.answer` — one request leaves a timeline sound and is answered as by its cursor;
* `Timeline.run_eq_cursor` — and so are any requests to a timeline of a recording.
-/

namespace Retrace

/-! ## Requests -/

namespace Timeline

inductive Request where
  | back
  | forward
  | goto (index : Nat)
  | stack
  | resolvedStack
  | backToDepthChange
deriving DecidableEq, Repr

inductive Answer where
  /-- The event moved to, if there is one. -/
  | moved (index : Option Nat)
  | stack (result : Except Error Stack)
  | resolvedStack (result : Except Error ResolvedStack)
  | depthChange (result : Except Error (Option Nat))

def answer (t : Timeline) : Request → Answer × Timeline
  | .back => t.back.map .moved id
  | .forward => t.forward.map .moved id
  | .goto index => (t.goto index).map (fun i => .moved (some i)) id
  | .stack => t.stack.map .stack id
  | .resolvedStack => t.resolvedStack.map .resolvedStack id
  | .backToDepthChange => t.backToDepthChange.map .depthChange id

/-- The answers to some requests, and the timeline after them. -/
def run (t : Timeline) : List Request → List Answer × Timeline
  | [] => ([], t)
  | q :: rest =>
    let (a, t) := t.answer q
    let (as, t) := t.run rest
    (a :: as, t)

end Timeline

/-! ## Keeping nothing -/

/-- The last event before number `i` after which another number of calls than `depth` was open, and
where the search for it ends. -/
def Recording.changeBefore (r : Recording) (depth : Nat) : Nat → Except Error (Option Nat) × Nat
  | 0 => (.ok none, 0)
  | i + 1 =>
    match r.stackAt i with
    | .error e => (.error e, i)
    | .ok s => if s.depth ≠ depth then (.ok (some i), i) else r.changeBefore depth i

/-- A position among the events of a recording. -/
structure Cursor where
  recording : Recording
  length : Nat
  current : Nat

namespace Cursor

open Timeline (Request Answer)

def stack (c : Cursor) : Except Error Stack := c.recording.stackAt c.current

def moveTo (c : Cursor) (index : Nat) : Cursor := { c with current := index }

def backToDepthChange (c : Cursor) : Except Error (Option Nat) × Cursor :=
  match c.stack with
  | .error e => (.error e, c)
  | .ok s =>
    let (result, index) := c.recording.changeBefore s.depth c.current
    (result, c.moveTo index)

def answer (c : Cursor) : Request → Answer × Cursor
  | .back =>
    if 0 < c.current then (.moved (some (c.current - 1)), c.moveTo (c.current - 1))
    else (.moved none, c)
  | .forward =>
    if c.current + 1 < c.length then (.moved (some (c.current + 1)), c.moveTo (c.current + 1))
    else (.moved none, c)
  | .goto index =>
    let target := min index (c.length - 1)
    (.moved (some target), c.moveTo target)
  | .stack => (.stack c.stack, c)
  | .resolvedStack => (.resolvedStack (c.stack >>= c.recording.resolve), c)
  | .backToDepthChange => c.backToDepthChange.map .depthChange id

def run (c : Cursor) : List Request → List Answer × Cursor
  | [] => ([], c)
  | q :: rest =>
    let (a, c) := c.answer q
    let (as, c) := c.run rest
    (a :: as, c)

end Cursor

namespace Timeline

/-- The timeline without what it keeps. -/
def cursor (t : Timeline) : Cursor := ⟨t.recording, t.length, t.current⟩

/-! ## What is kept -/

/-- A timeline of a recording stands at one of its events, if there are any, and what it keeps is
true. -/
structure Sound (r : Recording) (room : Nat) (t : Timeline) : Prop where
  recording_eq : t.recording = r
  room_eq : t.room = room
  count_eq : r.count = .ok t.length
  current : t.current < t.length ∨ t.length = 0 ∧ t.current = 0
  bounded : t.kept.length ≤ room
  keys : (t.kept.map Prod.fst).Perm t.queue
  once : t.queue.Nodup
  computed : ∀ entry ∈ t.kept, r.stackAt entry.1 = .ok entry.2

section Kept

variable {r : Recording} {room : Nat} {t : Timeline} {index : Nat} {s : Stack}

theorem sound_ofRecording (h : ofRecording r room = .ok t) : t.Sound r room := by
  rcases Except.bind_eq_ok.1 h with ⟨n, hcount, ht⟩
  cases ht
  refine ⟨rfl, rfl, hcount, ?_, Nat.zero_le _, .nil, .nil, ?_⟩
  · rcases Nat.eq_zero_or_pos n with hn | hn
    · exact .inr ⟨hn, rfl⟩
    · exact .inl hn
  · intro entry hentry
    cases hentry

theorem map_fst_without (index : Nat) (kept : List (Nat × Stack)) :
    (without index kept).map Prod.fst = (kept.map Prod.fst).filter (· ≠ index) := by
  rw [without, List.filter_map]
  rfl

/-- Every stack that is kept is queued. -/
theorem Sound.mem_queue (h : t.Sound r room) (hkept : (index, s) ∈ t.kept) : index ∈ t.queue :=
  h.keys.subset (List.mem_map_of_mem (f := Prod.fst) hkept)

theorem Sound.length_queue (h : t.Sound r room) : t.queue.length = t.kept.length := by
  rw [← h.keys.length_eq, List.length_map]

/-- Moving to an event changes nothing that is kept. -/
theorem Sound.moved (h : t.Sound r room)
    (hindex : index < t.length ∨ t.length = 0 ∧ index = 0) :
    ({ t with current := index } : Timeline).Sound r room :=
  ⟨h.recording_eq, h.room_eq, h.count_eq, hindex, h.bounded, h.keys, h.once, h.computed⟩

/-- The oldest stack goes from the map and from the queue. -/
theorem Sound.dropOldest (h : t.Sound r room) : t.dropOldest.Sound r room := by
  unfold Timeline.dropOldest
  split
  case h_1 => exact h
  case h_2 oldest queue hqueue =>
    have honce := h.once
    have hkeys := h.keys
    rw [hqueue] at honce hkeys
    rcases List.nodup_cons.1 honce with ⟨hnew, honce⟩
    have hfilter : (oldest :: queue).filter (· ≠ oldest) = queue := by
      rw [List.filter_cons_of_neg (by simp), List.filter_eq_self]
      intro i hi
      exact decide_eq_true fun hi' => hnew (hi' ▸ hi)
    refine ⟨h.recording_eq, h.room_eq, h.count_eq, h.current, ?_, ?_, honce, ?_⟩
    · exact Nat.le_trans (List.length_filter_le _ _) h.bounded
    · rw [map_fst_without, ← hfilter]
      exact hkeys.filter _
    · intro entry hentry
      exact h.computed entry (List.mem_filter.1 hentry).1

/-- Letting the oldest stack go makes room for another one. -/
theorem Sound.length_dropOldest (h : t.Sound r room) (hroom : 0 < room) :
    t.dropOldest.kept.length < room := by
  rw [← h.dropOldest.length_queue]
  have hbounded := h.bounded
  rw [← h.length_queue] at hbounded
  unfold Timeline.dropOldest
  split
  case h_1 hqueue => rwa [hqueue]
  case h_2 oldest queue hqueue =>
    rw [hqueue, List.length_cons] at hbounded
    exact hbounded

/-- A stack that is not kept yet finds its place where there is room. -/
theorem Sound.insert (h : t.Sound r room) (hnew : index ∉ t.queue) (hroom : t.kept.length < room)
    (hs : r.stackAt index = .ok s) :
    ({ t with
      kept := (index, s) :: without index t.kept
      queue := t.queue ++ [index] } : Timeline).Sound r room := by
  have hwithout : without index t.kept = t.kept := by
    rw [without, List.filter_eq_self]
    rintro ⟨i, s'⟩ hentry
    exact decide_eq_true fun hi => hnew (hi ▸ h.mem_queue hentry)
  rw [hwithout]
  refine ⟨h.recording_eq, h.room_eq, h.count_eq, h.current, hroom, ?_, ?_, ?_⟩
  · exact (h.keys.cons index).trans (List.perm_append_singleton index t.queue).symm
  · refine List.nodup_append.2 ⟨h.once, List.pairwise_singleton _ index, ?_⟩
    rintro i hi j hj rfl
    exact hnew (List.mem_singleton.1 hj ▸ hi)
  · intro entry hentry
    rcases List.mem_cons.1 hentry with rfl | hentry
    · exact hs
    · exact h.computed entry hentry

theorem Sound.keep (h : t.Sound r room) (hnew : index ∉ t.queue) (hs : r.stackAt index = .ok s) :
    (t.keep index s).Sound r room := by
  unfold Timeline.keep
  by_cases hroom : t.room = 0
  · rw [if_pos hroom]
    exact h
  · have hpos : 0 < room := h.room_eq ▸ Nat.pos_of_ne_zero hroom
    rw [if_neg hroom]
    by_cases hfull : t.room ≤ t.queue.length
    · rw [if_pos hfull]
      refine h.dropOldest.insert (fun hmem => hnew ?_) (h.length_dropOldest hpos) hs
      -- what is queued after that was queued before
      unfold Timeline.dropOldest at hmem
      split at hmem
      case h_1 => exact hmem
      case h_2 oldest queue hqueue =>
        rw [hqueue]
        exact List.mem_cons_of_mem oldest hmem
    · rw [if_neg hfull]
      refine h.insert hnew ?_ hs
      rw [← h.length_queue, ← h.room_eq]
      exact Nat.not_le.1 hfull

theorem cursor_dropOldest (t : Timeline) : t.dropOldest.cursor = t.cursor := by
  unfold dropOldest
  split <;> rfl

theorem cursor_keep (t : Timeline) (index : Nat) (s : Stack) :
    (t.keep index s).cursor = t.cursor := by
  unfold keep
  by_cases hroom : t.room = 0
  · rw [if_pos hroom]
  · rw [if_neg hroom]
    by_cases hfull : t.room ≤ t.queue.length
    · rw [if_pos hfull]
      exact cursor_dropOldest t
    · rw [if_neg hfull]
      rfl

end Kept

/-! ## One request -/

/-- The answer is `a`, and what is left is sound and stands at `c`. -/
def Yields {α : Type} (r : Recording) (room : Nat) (out : α × Timeline) (a : α) (c : Cursor) :
    Prop :=
  ∃ t, out = (a, t) ∧ t.Sound r room ∧ t.cursor = c

section Requests

variable {r : Recording} {room : Nat} {t : Timeline}

theorem Yields.map {α β : Type} {out : α × Timeline} {a : α} {c : Cursor}
    (h : Yields r room out a c) (f : α → β) : Yields r room (out.map f id) (f a) c := by
  rcases h with ⟨t, rfl, hsound, hcursor⟩
  exact ⟨t, rfl, hsound, hcursor⟩

/-- The stack is the one that the recording has, whether it was kept or not. -/
theorem Sound.stack (h : t.Sound r room) : Yields r room t.stack t.cursor.stack t.cursor := by
  have hcursor : t.cursor.stack = r.stackAt t.current := by
    rw [Cursor.stack, cursor, h.recording_eq]
  rw [Timeline.stack, h.recording_eq, hcursor]
  cases hkept : t.kept.lookup t.current with
  | some s =>
    rcases List.lookup_eq_some_iff.1 hkept with ⟨before, after, hsplit, -⟩
    have hmem : (t.current, s) ∈ t.kept := hsplit ▸ List.mem_append_right before List.mem_cons_self
    have hs : r.stackAt t.current = .ok s := h.computed _ hmem
    exact ⟨t, by rw [hs], h, rfl⟩
  | none =>
    cases hs : r.stackAt t.current with
    | error e => exact ⟨t, rfl, h, rfl⟩
    | ok s =>
      have hnew : t.current ∉ t.queue := by
        intro hmem
        rcases List.mem_map.1 (h.keys.symm.subset hmem) with ⟨entry, hentry, hcurrent⟩
        exact bne_iff_ne.1 (List.lookup_eq_none_iff.1 hkept entry hentry) hcurrent.symm
      exact ⟨t.keep t.current s, rfl, h.keep hnew hs, cursor_keep t t.current s⟩

theorem Sound.resolvedStack (h : t.Sound r room) :
    Yields r room t.resolvedStack (t.cursor.stack >>= t.cursor.recording.resolve) t.cursor := by
  rcases h.stack with ⟨t', hstack, hsound, hcursor⟩
  rw [Timeline.resolvedStack, hstack, ← hcursor]
  refine ⟨t', ?_, hsound, rfl⟩
  cases t'.cursor.stack with
  | error e => rfl
  | ok s => rfl

/-- Going back step by step is looking at one event before the other. -/
theorem Sound.backFrom (h : t.Sound r room) (depth : Nat) :
    Yields r room (backFrom depth t.current t) (r.changeBefore depth t.current).1
      (t.cursor.moveTo (r.changeBefore depth t.current).2) := by
  generalize hn : t.current = n
  induction n generalizing t with
  | zero =>
    refine ⟨t, rfl, h, ?_⟩
    rw [Recording.changeBefore, ← hn]
    rfl
  | succ n ih =>
    have hback : t.back = (some n, { t with current := n }) := by
      rw [back, hn, if_pos (Nat.succ_pos n), Nat.add_sub_cancel]
    have hcurrent := h.current
    have hindex : n < t.length ∨ t.length = 0 ∧ n = 0 := by omega
    have hmoved := h.moved hindex
    rcases hmoved.stack with ⟨t', hstack, hsound, hcursor⟩
    have hresult : Cursor.stack (cursor { t with current := n }) = r.stackAt n := by
      rw [Cursor.stack, cursor, h.recording_eq]
    rw [hresult] at hstack
    simp only [Timeline.backFrom, hback, hstack, Recording.changeBefore]
    cases r.stackAt n with
    | error e => exact ⟨t', rfl, hsound, hcursor⟩
    | ok s =>
      have hposition : t'.current = n := congrArg Cursor.current hcursor
      by_cases hdepth : s.depth = depth
      · simp only [hdepth, ne_eq, not_true_eq_false, if_false]
        rcases ih hsound hposition with ⟨t'', hback', hsound', hcursor'⟩
        refine ⟨t'', hback', hsound', ?_⟩
        rw [hcursor', hcursor]
        rfl
      · simp only [ne_eq, hdepth, not_false_eq_true, if_true, hposition]
        exact ⟨t', rfl, hsound, hcursor⟩

theorem Sound.backToDepthChange (h : t.Sound r room) :
    Yields r room t.backToDepthChange t.cursor.backToDepthChange.1
      t.cursor.backToDepthChange.2 := by
  rcases h.stack with ⟨t', hstack, hsound, hcursor⟩
  rw [Timeline.backToDepthChange, hstack, ← hcursor, Cursor.backToDepthChange]
  cases t'.cursor.stack with
  | error e => exact ⟨t', rfl, hsound, rfl⟩
  | ok s =>
    have hback := hsound.backFrom s.depth
    rw [← hsound.recording_eq] at hback ⊢
    exact hback

/-- A request is answered as by a timeline that keeps nothing. -/
theorem Sound.answer (h : t.Sound r room) (q : Request) :
    Yields r room (t.answer q) (t.cursor.answer q).1 (t.cursor.answer q).2 := by
  have hcurrent := h.current
  cases q with
  | back =>
    by_cases hpos : 0 < t.current
    · have hpos' : 0 < t.cursor.current := hpos
      rw [Timeline.answer, back, Cursor.answer, if_pos hpos, if_pos hpos']
      exact ⟨_, rfl, h.moved (by omega), rfl⟩
    · have hpos' : ¬ 0 < t.cursor.current := hpos
      rw [Timeline.answer, back, Cursor.answer, if_neg hpos, if_neg hpos']
      exact ⟨_, rfl, h, rfl⟩
  | forward =>
    by_cases hlt : t.current + 1 < t.length
    · have hlt' : t.cursor.current + 1 < t.cursor.length := hlt
      rw [Timeline.answer, forward, Cursor.answer, if_pos hlt, if_pos hlt']
      exact ⟨_, rfl, h.moved (.inl hlt), rfl⟩
    · have hlt' : ¬ t.cursor.current + 1 < t.cursor.length := hlt
      rw [Timeline.answer, forward, Cursor.answer, if_neg hlt, if_neg hlt']
      exact ⟨_, rfl, h, rfl⟩
  | goto index => exact ⟨_, rfl, h.moved (by omega), rfl⟩
  | stack => exact h.stack.map Answer.stack
  | resolvedStack => exact h.resolvedStack.map Answer.resolvedStack
  | backToDepthChange => exact h.backToDepthChange.map Answer.depthChange

/-- Any requests are answered as by a timeline that keeps nothing. -/
theorem Sound.run (h : t.Sound r room) (requests : List Request) :
    Yields r room (t.run requests) (t.cursor.run requests).1 (t.cursor.run requests).2 := by
  induction requests generalizing t with
  | nil => exact ⟨t, rfl, h, rfl⟩
  | cons q rest ih =>
    rcases h.answer q with ⟨t', hanswer, hsound, hcursor⟩
    rcases ih hsound with ⟨t'', hrest, hsound', hcursor'⟩
    rw [hcursor] at hrest hcursor'
    refine ⟨t'', ?_, hsound', hcursor'⟩
    simp only [Timeline.run, Cursor.run, hanswer, hrest]

end Requests

/-- A timeline of a recording gives the answers, and takes the positions, of one that keeps nothing
and replays the recording for each stack.  It stands at an event, if there is one, and what it keeps
are the stacks of their events, each found under a number that is queued once, and no more of them
than there is room for. -/
theorem run_eq_cursor {r : Recording} {room : Nat} {t : Timeline}
    (h : ofRecording r room = .ok t) (requests : List Request) :
    ∃ n, r.count = .ok n ∧
      (t.run requests).1 = (Cursor.run ⟨r, n, 0⟩ requests).1 ∧
      (t.run requests).2.cursor = (Cursor.run ⟨r, n, 0⟩ requests).2 ∧
      (t.run requests).2.Sound r room := by
  rcases Except.bind_eq_ok.1 h with ⟨n, hcount, ht⟩
  have hcursor : t.cursor = ⟨r, n, 0⟩ := by
    cases ht
    rfl
  rcases (sound_ofRecording h).run requests with ⟨t', hrun, hsound, hposition⟩
  rw [hcursor] at hrun hposition
  rw [hrun]
  exact ⟨n, hcount, rfl, hposition, hsound⟩

/-- Function 5 of module 1 calls function 6, reaches block 3 after that and returns, and then there
is one more return. -/
def overturnedTrace : List UInt8 := [0x01, 0x45, 0x82, 0x46, 0x89, 0xC0, 0x83, 0xC0, 0xC0]

theorem run_eq_cursor_overturnedTrace :
    ∃ t, ofRecording (.ofBytes overturnedTrace) 2 = .ok t ∧
      (t.run [.goto 4, .stack, .back, .stack, .back, .stack, .goto 99, .stack, .goto 4,
          .backToDepthChange]).1
        = [.moved (some 4), .stack (.ok ⟨[⟨1, 5, some 2⟩, ⟨1, 6, some 9⟩]⟩), .moved (some 3),
          .stack (.ok ⟨[⟨1, 5, some 2⟩, ⟨1, 6, none⟩]⟩), .moved (some 2),
          .stack (.ok ⟨[⟨1, 5, some 2⟩]⟩), .moved (some 8),
          .stack (.error (.unbalancedReturn 8)), .moved (some 4), .depthChange (.ok (some 2))] ∧
      (t.run [.goto 4, .stack, .back, .stack, .back, .stack, .goto 99, .stack, .goto 4,
          .backToDepthChange]).2.Sound (.ofBytes overturnedTrace) 2 := by
  have h : ofRecording (.ofBytes overturnedTrace) 2
      = .ok ⟨.ofBytes overturnedTrace, 0, 9, 2, [], []⟩ := rfl
  rcases run_eq_cursor h [.goto 4, .stack, .back, .stack, .back, .stack, .goto 99, .stack, .goto 4,
    .backToDepthChange] with ⟨n, hcount, hanswers, -, hsound⟩
  cases hcount
  exact ⟨_, h, hanswers.trans rfl, hsound⟩

end Timeline

end Retrace
