import Retrace.Trace.Table.Packed
import Retrace.Trace.Wire

/-!
# Replaying a trace

* `Frame`, `Stack` — an open call and all of them;
* `Machine` — what a stretch of a trace has built up: the active module, the open calls and the
  tables seen;
* `Machine.apply`, `Machine.run` — the effect of one event and of many.

A call belongs to the module that is active when it starts.  A block belongs to the innermost open
call and is of no effect where there is none.
-/

namespace Retrace

/-! ## Stacks -/

/-- An open call, with the last block reached in it. -/
structure Frame where
  module : Nat
  function : Nat
  block : Option Nat
deriving DecidableEq, Repr, Inhabited

/-- The open calls, the outermost first. -/
structure Stack where
  frames : List Frame
deriving DecidableEq, Repr, Inhabited

namespace Stack

def depth (s : Stack) : Nat := s.frames.length

/-- The innermost call. -/
def top? (s : Stack) : Option Frame := s.frames.getLast?

end Stack

/-! ## The machine -/

/-- The innermost call comes first in `frames`.  The tables stand in the order in which their
modules first had one, each with the payload seen last. -/
structure Machine where
  active : Option Nat
  frames : List Frame
  tables : List (Nat × List UInt8)
deriving DecidableEq, Repr

namespace Machine

def start : Machine := ⟨none, [], []⟩

def stack (m : Machine) : Stack := ⟨m.frames.reverse⟩

/-- The table list with the payload of a module put in. -/
def putTable (id : Nat) (payload : List UInt8) :
    List (Nat × List UInt8) → List (Nat × List UInt8)
  | [] => [(id, payload)]
  | (i, p) :: rest => if i = id then (id, payload) :: rest else (i, p) :: putTable id payload rest

/-- The active module, which the event of number `index` at byte `offset` needs. -/
def requireModule (m : Machine) (index offset : Nat) (use : ModuleUse) : Except Error Nat :=
  match m.active with
  | some id => .ok id
  | none => .error (.malformedTrace offset (.noModule use index))

/-- The effect of the event of number `index`, which starts at byte `offset`. -/
def apply (m : Machine) (index offset : Nat) : Event → Except Error Machine
  | .setModule id => .ok { m with active := some id }
  | .table payload => do
    let id ← m.requireModule index offset .table
    pure { m with tables := putTable id payload m.tables }
  | .call function => do
    let id ← m.requireModule index offset .call
    pure { m with frames := ⟨id, function, none⟩ :: m.frames }
  | .block id =>
    match m.frames with
    | top :: rest => .ok { m with frames := { top with block := some id } :: rest }
    | [] => .ok m
  | .ret =>
    match m.frames with
    | _ :: rest => .ok { m with frames := rest }
    | [] => .error (.unbalancedReturn index)

/-- The effect of events one after another, the first of them being number `index`. -/
def run (m : Machine) (index : Nat) : List Step → Except Error Machine
  | [] => .ok m
  | s :: rest => do
    let m ← m.apply index s.offset s.event
    m.run (index + 1) rest

/-- The table of a module as seen last, if there was one. -/
def table? (m : Machine) (id : Nat) : Except Error (Option Table) :=
  match m.tables.lookup id with
  | none => .ok none
  | some payload => (Table.ofBytes payload).map some

/-- The same with the tables in `read` at hand, those that have been read before: no table is read
twice. -/
def tableOnce? (m : Machine) (read : List (Nat × Table)) (id : Nat) :
    Except Error (Option Table × List (Nat × Table)) :=
  match m.tables.lookup id, read.lookup id with
  | none, _ => .ok (none, read)
  | some _, some table => .ok (some table, read)
  | some payload, none => do
    let table ← Table.ofBytes payload
    pure (some table, (id, table) :: read)

end Machine

end Retrace
