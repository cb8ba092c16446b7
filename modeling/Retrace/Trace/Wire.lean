import Retrace.Trace.Event

/-!
# The bytes of a trace

An event starts with a byte whose two high bits are its kind.  For modules, calls and blocks the six
low bits hold an id below 61, or say that the id follows in one, two or three bytes, the least
significant first.  The fourth kind is shared by returns and tables; a table carries its length in
four bytes, the most significant first.

* `Event.encode` — the bytes of an event;
* `Event.read`, `Event.decodeAt` — the event at the start of some bytes, or at an offset of them;
* `Trace.walk` — all events of a trace with their offsets, up to the first that cannot be read;
* `Trace.decode` — all events, if every byte belongs to one;
* `Walker.next` — one event after another, until the trace ends or one cannot be read.
-/

namespace Retrace

/-! ## Writing -/

/-- Four bytes, the most significant first. -/
def bigEndian32 (n : Nat) : List UInt8 :=
  [UInt8.ofNat (n / 0x1000000), UInt8.ofNat (n / 0x10000), UInt8.ofNat (n / 0x100), UInt8.ofNat n]

/-- The number that bytes stand for, the most significant first. -/
def ofBigEndian (bytes : List UInt8) : Nat := bytes.foldl (fun n b => 256 * n + b.toNat) 0

/-- The number that bytes stand for, the least significant first. -/
def ofLittleEndian (bytes : List UInt8) : Nat := bytes.foldr (fun b n => b.toNat + 256 * n) 0

namespace Event

/-- The bytes of an event of kind `kind` that carries an id. -/
def operandBytes (kind id : Nat) : List UInt8 :=
  if id < 61 then [UInt8.ofNat (64 * kind + id)]
  else if id < 0x100 then [UInt8.ofNat (64 * kind + 61), UInt8.ofNat id]
  else if id < 0x10000 then
    [UInt8.ofNat (64 * kind + 62), UInt8.ofNat id, UInt8.ofNat (id / 0x100)]
  else
    [UInt8.ofNat (64 * kind + 63), UInt8.ofNat id, UInt8.ofNat (id / 0x100),
      UInt8.ofNat (id / 0x10000)]

/-- The bytes of an event.  Ids have to fit into three bytes, and the length of a table into
four. -/
def encode : Event → Except Error (List UInt8)
  | setModule id => do
    checkOperand id
    pure (operandBytes 0 id)
  | call function => do
    checkOperand function
    pure (operandBytes 1 function)
  | block id => do
    checkOperand id
    pure (operandBytes 2 id)
  | ret => .ok [0xC0]
  | table payload =>
    if payload.length < 0x100000000 then .ok (0xC1 :: bigEndian32 payload.length ++ payload)
    else .error (.valueTooLarge payload.length)

/-- The bytes of events one after another. -/
def encodeAll : List Event → Except Error (List UInt8)
  | [] => .ok []
  | e :: rest => do
    let bytes ← e.encode
    pure (bytes ++ (← encodeAll rest))

/-! ## Reading -/

/-- The first `n` bytes, if there are so many. -/
def firstBytes? : Nat → List UInt8 → Option (List UInt8)
  | 0, _ => some []
  | _ + 1, [] => none
  | n + 1, b :: rest => (firstBytes? n rest).map (b :: ·)

/-- The first `n` bytes of what is left of a trace. -/
def take (n : Nat) (bytes : List UInt8) : Except TraceFault (List UInt8) :=
  match firstBytes? n bytes with
  | some front => .ok front
  | none => .error (.truncated n bytes.length)

/-- An id, of which the six low bits of the first byte are given, and how many bytes it takes up
after that. -/
def readOperand (low : Nat) (rest : List UInt8) : Except TraceFault (Nat × Nat) :=
  if low < 61 then .ok (low, 0)
  else do
    let bytes ← take (low - 60) rest
    pure (ofLittleEndian bytes, low - 60)

/-- The event that starts with byte `b`, and how many bytes of `rest` it takes up. -/
def read (b : UInt8) (rest : List UInt8) : Except TraceFault (Event × Nat) := do
  let low := b.toNat % 64
  match b.toNat / 64 with
  | 0 => let (id, width) ← readOperand low rest; pure (setModule id, width)
  | 1 => let (id, width) ← readOperand low rest; pure (call id, width)
  | 2 => let (id, width) ← readOperand low rest; pure (block id, width)
  | _ =>
    if low = 0 then pure (ret, 0)
    else if low = 1 then
      let length := ofBigEndian (← take 4 rest)
      let payload ← take length (rest.drop 4)
      pure (table payload, 4 + length)
    else throw (.unknownOpcode b)

/-- The event at `offset` and the offset after it, or nothing at the end of the trace. -/
def decodeAt (bytes : List UInt8) (offset : Nat) : Except Error (Option (Event × Nat)) :=
  match bytes.drop offset with
  | [] => .ok none
  | b :: rest =>
    match read b rest with
    | .ok (e, width) => .ok (some (e, offset + 1 + width))
    | .error fault => .error (.malformedTrace offset fault)

end Event

/-! ## Walking a trace -/

/-- An event with the bytes it takes up. -/
structure Step where
  offset : Nat
  next : Nat
  event : Event
deriving DecidableEq, Repr

/-- The events that could be read, and what stopped the walk before the end. -/
structure Walk where
  steps : List Step
  error? : Option Error
deriving DecidableEq, Repr

/-- Where the walk ends: at the end of the trace or at the event that cannot be read. -/
def Walk.stop (w : Walk) : Nat := (w.steps.getLast?.map (·.next)).getD 0

namespace Trace

/-- Walks on from `offset`, where the first `skip` bytes belong to the event before. -/
def walkFrom (offset skip : Nat) : List UInt8 → Walk
  | [] => ⟨[], none⟩
  | b :: rest =>
    match skip with
    | skip + 1 => walkFrom offset skip rest
    | 0 =>
      match Event.read b rest with
      | .error fault => ⟨[], some (.malformedTrace offset fault)⟩
      | .ok (e, width) =>
        let next := offset + 1 + width
        let w := walkFrom next width rest
        ⟨⟨offset, next, e⟩ :: w.steps, w.error?⟩

def walk (bytes : List UInt8) : Walk := walkFrom 0 0 bytes

/-- All events, if the walk reaches the end. -/
def decode (bytes : List UInt8) : Except Error (List Event) :=
  let w := walk bytes
  match w.error? with
  | some e => .error e
  | none => .ok (w.steps.map (·.event))

end Trace

/-! ## One event at a time -/

/-- A trace that has been walked up to `offset`. -/
structure Walker where
  bytes : List UInt8
  offset : Nat
  failed : Bool
deriving DecidableEq, Repr

namespace Walker

def start (bytes : List UInt8) : Walker := ⟨bytes, 0, false⟩

/-- The next event or what is wrong with it, and nothing at the end of the trace.  After an event
that cannot be read there is nothing more, and the walker stays in front of it. -/
def next (w : Walker) : Option (Except Error Event) × Walker :=
  if w.failed then (none, w)
  else
    match Event.decodeAt w.bytes w.offset with
    | .ok (some (e, next)) => (some (.ok e), { w with offset := next })
    | .ok none => (none, w)
    | .error e => (some (.error e), { w with failed := true })

/-- The walker after being asked `n` times. -/
def after (w : Walker) : Nat → Walker
  | 0 => w
  | n + 1 => w.next.2.after n

end Walker

end Retrace
