import Retrace.Replay.Machine

/-!
# Questions to a finished trace

* `Recording` — the bytes of a trace and the events in them;
* `Recording.stackAt`, `Recording.resolvedStackAt` — the open calls after an event, and where they
  stand in the sources, going by the tables seen up to there;
* `Recording.resolvedOnceAt` — the same, reading no table twice;
* `Recording.resolve` — the same for any stack, going by the first table of each module;
* `Recording.tableOf?`, `Recording.tables` — the tables in the trace.

A question about a part of the trace is answered even if a later part cannot be read.
-/

namespace Retrace

/-! ## Resolved stacks -/

/-- An open call with its place in the sources. -/
structure ResolvedFrame where
  module : Nat
  place : Place
deriving DecidableEq, Repr, Inhabited

structure ResolvedStack where
  frames : List ResolvedFrame
deriving DecidableEq, Repr, Inhabited

/-- A frame whose module has the given table, or none. -/
def Frame.resolve (f : Frame) (table? : Option Table) : ResolvedFrame where
  module := f.module
  place :=
    match table? with
    | some t => t.locate f.function f.block
    | none => ⟨f.function, f.block, none⟩

instance : ToString ResolvedFrame where
  toString f := toString f.place

instance : ToString ResolvedStack where
  toString s := "\n".intercalate (s.frames.map toString)

def ResolvedFrame.toJson (f : ResolvedFrame) : Json :=
  .obj [("module_id", .num f.module), ("position", f.place.toJson)]

def ResolvedStack.toJson (s : ResolvedStack) : Json :=
  .obj [("frames", .arr (s.frames.map ResolvedFrame.toJson))]

/-! ## Recordings -/

structure Recording where
  bytes : List UInt8
  walk : Walk
deriving Repr

namespace Recording

def ofBytes (bytes : List UInt8) : Recording := ⟨bytes, Trace.walk bytes⟩

/-- Fails if the trace cannot be read to its end. -/
def checkEnd (r : Recording) : Except Error Unit :=
  match r.walk.error? with
  | some e => .error e
  | none => .ok ()

/-- The number of events. -/
def count (r : Recording) : Except Error Nat := do
  r.checkEnd
  pure r.walk.steps.length

def events (r : Recording) : Except Error (List Event) := do
  r.checkEnd
  pure (r.walk.steps.map (·.event))

/-- The machine after all events.  What goes wrong first is reported. -/
def replayAll (r : Recording) : Except Error Machine := do
  let m ← Machine.start.run 0 r.walk.steps
  r.checkEnd
  pure m

/-- The machine after the events up to number `index`, or after all if there are no more. -/
def replay (r : Recording) (index : Nat) : Except Error Machine :=
  if index < r.walk.steps.length then Machine.start.run 0 (r.walk.steps.take (index + 1))
  else r.replayAll

def stackAt (r : Recording) (index : Nat) : Except Error Stack := do
  pure (← r.replay index).stack

def resolvedStackAt (r : Recording) (index : Nat) : Except Error ResolvedStack := do
  let m ← r.replay index
  let frames ← m.stack.frames.mapM fun f => do pure (f.resolve (← m.table? f.module))
  pure ⟨frames⟩

/-- Frames one after another, with the tables in `read` at hand. -/
def resolveOnce (m : Machine) (read : List (Nat × Table)) :
    List Frame → Except Error (List ResolvedFrame)
  | [] => .ok []
  | f :: rest => do
    let (table?, read) ← m.tableOnce? read f.module
    pure (f.resolve table? :: (← resolveOnce m read rest))

/-- `resolvedStackAt` with the table of each module read when its first frame needs it. -/
def resolvedOnceAt (r : Recording) (index : Nat) : Except Error ResolvedStack := do
  let m ← r.replay index
  pure ⟨← resolveOnce m [] m.stack.frames⟩

/-! ## Tables -/

/-- The first payload that comes while module `id` is active. -/
def firstPayload? (id : Nat) (active : Option Nat) : List Step → Option (List UInt8)
  | [] => none
  | s :: rest =>
    match s.event with
    | .setModule next => firstPayload? id (some next) rest
    | .table payload => if active = some id then some payload else firstPayload? id active rest
    | _ => firstPayload? id active rest

/-- The table recorded for a module, if the trace has one. -/
def tableOf? (r : Recording) (id : Nat) : Except Error (Option Table) :=
  match firstPayload? id none r.walk.steps with
  | some payload => (Table.ofBytes payload).map some
  | none => do
    r.checkEnd
    pure none

/-- All tables, in the order in which their modules first had one. -/
def tables (r : Recording) : Except Error (List (Nat × Table)) := do
  let m ← r.replayAll
  m.tables.mapM fun (id, payload) => do pure (id, ← Table.ofBytes payload)

/-- A stack with the places of its frames. -/
def resolve (r : Recording) (s : Stack) : Except Error ResolvedStack := do
  let frames ← s.frames.mapM fun f => do pure (f.resolve (← r.tableOf? f.module))
  pure ⟨frames⟩

end Recording

end Retrace
