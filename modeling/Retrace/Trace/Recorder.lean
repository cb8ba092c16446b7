import Retrace.Trace.Table.Packed
import Retrace.Trace.Wire

/-!
# Recording a trace

* `Recorder` — the bytes written so far and what the next call may take for granted;
* `Recorder.enter`, `Recorder.block`, `Recorder.ret` — recording a call, a block and a return;
* `Recorder.run` — recording a whole history.

A module is named only where it differs from the one before, and its table follows the first time it
is named.  Tables come from a supplier, which may answer differently each time it is asked and which
is asked only for tables that have not been written.
-/

namespace Retrace

/-- Looks up the table of a module, given the supplier's own state. -/
abbrev Supplier (σ : Type) := σ → Nat → Except Error Table × σ

structure Recorder (σ : Type) where
  supply : σ
  bytes : List UInt8
  active : Option Nat
  known : List Nat
deriving Repr

namespace Recorder

variable {σ : Type}

def start (supply : σ) : Recorder σ := ⟨supply, [], none, []⟩

/-- Appends an event, or nothing if it cannot be encoded. -/
def write (r : Recorder σ) (e : Event) : Except Error Unit × Recorder σ :=
  match e.encode with
  | .ok bytes => (.ok (), { r with bytes := r.bytes ++ bytes })
  | .error error => (.error error, r)

/-- Makes a module the active one, with its table if there is one to write. -/
def switchTo (r : Recorder σ) (module : Nat) (payload? : Option (List UInt8)) :
    Except Error Unit × Recorder σ :=
  match r.write (.setModule module) with
  | (.error e, r) => (.error e, r)
  | (.ok (), r) =>
    let r := { r with active := some module }
    match payload? with
    | none => (.ok (), r)
    | some payload =>
      match r.write (.table payload) with
      | (.error e, r) => (.error e, r)
      | (.ok (), r) => (.ok (), { r with known := module :: r.known })

/-- Switches to a module unless it is the active one, asking for its table if that is not
written. -/
def activate (ask : Supplier σ) (r : Recorder σ) (module : Nat) : Except Error Unit × Recorder σ :=
  if r.active = some module then (.ok (), r)
  else
    match Event.checkOperand module with
    | .error e => (.error e, r)
    | .ok () =>
      if module ∈ r.known then r.switchTo module none
      else
        match ask r.supply module with
        | (.error e, supply) => (.error e, { r with supply })
        | (.ok table, supply) => { r with supply }.switchTo module (some table.toBytes)

/-- Records that a function of a module is entered. -/
def enter (ask : Supplier σ) (r : Recorder σ) (module function : Nat) :
    Except Error Unit × Recorder σ :=
  match Event.checkOperand function with
  | .error e => (.error e, r)
  | .ok () =>
    match r.activate ask module with
    | (.error e, r) => (.error e, r)
    | (.ok (), r) => r.write (.call function)

/-- Records that a block of the function entered last is reached. -/
def block (r : Recorder σ) (id : Nat) : Except Error Unit × Recorder σ := r.write (.block id)

/-- Records that the function entered last returns. -/
def ret (r : Recorder σ) : Except Error Unit × Recorder σ := r.write .ret

end Recorder

/-! ## Histories -/

/-- Something that happens while a program runs. -/
inductive Call where
  | enter (module function : Nat)
  | block (id : Nat)
  | ret
deriving DecidableEq, Repr

namespace Recorder

variable {σ : Type}

def record (ask : Supplier σ) (r : Recorder σ) : Call → Except Error Unit × Recorder σ
  | .enter module function => r.enter ask module function
  | .block id => r.block id
  | .ret => r.ret

/-- Records one call after another, those that fail included. -/
def run (ask : Supplier σ) (r : Recorder σ) (calls : List Call) : Recorder σ :=
  calls.foldl (fun r c => (r.record ask c).2) r

end Recorder

end Retrace
