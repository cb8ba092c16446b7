import Retrace.Replay.Recording

/-!
# Moving through a recording

* `Timeline` — a position among the events of a recording, with some stacks kept ready;
* `Timeline.back`, `Timeline.forward`, `Timeline.goto` — moving;
* `Timeline.stack`, `Timeline.resolvedStack` — the open calls at the position;
* `Timeline.backToDepthChange` — moving back to where another number of calls was open.

The stacks kept are those asked for last, each once, and the oldest goes when there is no more room.
They form a map from the numbers of events, and a queue of its keys says which of them is the
oldest.  No answer depends on them.
-/

namespace Retrace

/-- The stacks in `kept` are found by the numbers of their events, which stand in `queue`, the
oldest first. -/
structure Timeline where
  recording : Recording
  current : Nat
  length : Nat
  room : Nat
  kept : List (Nat × Stack)
  queue : List Nat
deriving Repr

namespace Timeline

/-- At the first event of a recording that can be read to its end. -/
def ofRecording (r : Recording) (room : Nat) : Except Error Timeline := do
  pure ⟨r, 0, ← r.count, room, [], []⟩

/-! ## Moving -/

def back (t : Timeline) : Option Nat × Timeline :=
  if 0 < t.current then (some (t.current - 1), { t with current := t.current - 1 })
  else (none, t)

def forward (t : Timeline) : Option Nat × Timeline :=
  if t.current + 1 < t.length then (some (t.current + 1), { t with current := t.current + 1 })
  else (none, t)

/-- Moves to an event, or to the last one if there are not so many. -/
def goto (t : Timeline) (index : Nat) : Nat × Timeline :=
  let target := min index (t.length - 1)
  (target, { t with current := target })

/-! ## Stacks -/

/-- The map without the stack of one event. -/
def without (index : Nat) (kept : List (Nat × Stack)) : List (Nat × Stack) :=
  kept.filter fun entry => entry.1 ≠ index

/-- Lets go of the stack that has been kept longest. -/
def dropOldest (t : Timeline) : Timeline :=
  match t.queue with
  | [] => t
  | oldest :: queue => { t with kept := without oldest t.kept, queue := queue }

/-- Keeps the stack of an event, in the place of the oldest one if there is no more room. -/
def keep (t : Timeline) (index : Nat) (s : Stack) : Timeline :=
  if t.room = 0 then t
  else
    let t := if t.room ≤ t.queue.length then t.dropOldest else t
    { t with kept := (index, s) :: without index t.kept, queue := t.queue ++ [index] }

def stack (t : Timeline) : Except Error Stack × Timeline :=
  -- what is kept is what would be computed
  match t.kept.lookup t.current with
  | some s => (.ok s, t)
  | none =>
    match t.recording.stackAt t.current with
    | .ok s => (.ok s, t.keep t.current s)
    | .error e => (.error e, t)

def resolvedStack (t : Timeline) : Except Error ResolvedStack × Timeline :=
  match t.stack with
  | (.ok s, t) => (t.recording.resolve s, t)
  | (.error e, t) => (.error e, t)

/-- Moves back until another number of calls than `depth` is open, at most `steps` events. -/
def backFrom (depth : Nat) : Nat → Timeline → Except Error (Option Nat) × Timeline
  | 0, t => (.ok none, t)
  | steps + 1, t =>
    match t.back with
    | (none, t) => (.ok none, t)
    | (some _, t) =>
      match t.stack with
      | (.error e, t) => (.error e, t)
      | (.ok s, t) => if s.depth ≠ depth then (.ok (some t.current), t) else backFrom depth steps t

/-- Moves back to the nearest event after which another number of calls was open, or to the first
event if there is none. -/
def backToDepthChange (t : Timeline) : Except Error (Option Nat) × Timeline :=
  match t.stack with
  | (.error e, t) => (.error e, t)
  | (.ok s, t) => backFrom s.depth t.current t

end Timeline

end Retrace
