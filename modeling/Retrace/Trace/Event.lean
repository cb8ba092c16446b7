import Retrace.Error
import Retrace.Text.Utf8

/-!
# Trace events

* `Event` — what a trace is made of;
* `Event.checkOperand` — the ids that a trace can hold.

An event names modules, functions and blocks by number.  The table of a module, which says where its
functions and blocks stand in the sources, travels in the trace as plain bytes.
-/

namespace Retrace

inductive Event where
  | setModule (id : Nat)
  | table (payload : List UInt8)
  | call (function : Nat)
  | block (id : Nat)
  | ret
deriving DecidableEq, Repr, Inhabited

namespace Event

/-- The largest id that fits into three bytes. -/
def maxOperand : Nat := 0xFFFFFF

def checkOperand (id : Nat) : Except Error Unit :=
  if maxOperand < id then .error (.valueTooLarge id) else .ok ()

/-- The payload of a table as text, with replacement characters for what is none. -/
def payloadText (payload : List UInt8) : String := String.ofList (Utf8.decodeLossy payload)

/-- The text of the table, if the event holds one. -/
def tableText? : Event → Option String
  | table payload => some (payloadText payload)
  | _ => none

instance : ToString Event where
  toString
    | setModule id => s!"SetModuleId({id})"
    | table payload => s!"SetModuleInfo({payloadText payload})"
    | call function => s!"CallFunction({function})"
    | block id => s!"ReachedBlock({id})"
    | ret => "ReturnFunction"

end Event

end Retrace
