import Retrace.Proofs.Replay.FirstTables

/-!
# Lazy — which tables a resolved stack needs

A frame is resolved by the payload of its module that came last, and no other payload is looked at.

* `Trace.latest?` — the payload of a module that came last up to an event;
* `Machine.table?_eq` — the table that a machine has for a module is read from it;
* `Recording.resolvedOnceAt_eq` — reading no table twice makes no difference;
* `Frame.PlacedBy` — a frame resolved by a payload, or by none;
* `Recording.resolvedStackAt_lazy` — a stack can be resolved if the payloads of its open calls can be
  read, and each call stands where its payload says.
-/

namespace Retrace

open Trace

/-- The payload of a module that came last up to event `i`. -/
def Trace.latest? (bytes : List UInt8) (i id : Nat) : Option (List UInt8) :=
  (payloads id none (upTo bytes i)).getLast?

/-- The payload that came last for a module is a table, if one came at all. -/
def Trace.Legible (bytes : List UInt8) (i id : Nat) : Prop :=
  ∀ payload ∈ latest? bytes i id, ∃ table, Table.ofBytes payload = .ok table

/-- A frame stands where the table in a payload says, and nowhere if there is no payload. -/
structure Frame.PlacedBy (payload? : Option (List UInt8)) (f : Frame) (g : ResolvedFrame) :
    Prop where
  module : g.module = f.module
  function : g.place.function = f.function
  block : g.place.block = f.block
  source :
    match payload? with
    | none => g.place.source = none
    | some payload =>
      ∃ table, Table.ofBytes payload = .ok table ∧
        g.place.source = (table.locate f.function f.block).source

namespace Machine

variable {m : Machine} {read : List (Nat × Table)}

/-- A frame with its place, going by the tables that the machine has. -/
def place (m : Machine) (f : Frame) : Except Error ResolvedFrame := do
  pure (f.resolve (← m.table? f.module))

/-! ## Reading no table twice -/

/-- The tables at hand are those that the machine has. -/
def Coherent (m : Machine) (read : List (Nat × Table)) : Prop :=
  ∀ id table, read.lookup id = some table → m.table? id = .ok (some table)

theorem coherent_nil (m : Machine) : m.Coherent [] := by
  intro id table h
  cases h

theorem Coherent.cons (h : m.Coherent read) {id : Nat} {table : Table}
    (htable : m.table? id = .ok (some table)) : m.Coherent ((id, table) :: read) := by
  intro id' table' hlookup
  rw [List.lookup_cons] at hlookup
  cases hid : id' == id with
  | true =>
    rw [hid] at hlookup
    cases hlookup
    rw [beq_iff_eq.1 hid]
    exact htable
  | false =>
    rw [hid] at hlookup
    exact h id' table' hlookup

/-- A table at hand is the one that would be read. -/
theorem Coherent.tableOnce? (h : m.Coherent read) (id : Nat) :
    match m.table? id with
    | .error e => m.tableOnce? read id = .error e
    | .ok table? => ∃ read', m.tableOnce? read id = .ok (table?, read') ∧ m.Coherent read' := by
  cases hread : read.lookup id with
  | some table =>
    have htable := h id table hread
    rw [htable]
    rw [table?] at htable
    cases hpayload : m.tables.lookup id with
    | none =>
      rw [hpayload] at htable
      cases htable
    | some payload =>
      refine ⟨read, ?_, h⟩
      simp only [Machine.tableOnce?, hpayload, hread]
  | none =>
    cases hpayload : m.tables.lookup id with
    | none =>
      simp only [table?, Machine.tableOnce?, hpayload, hread]
      exact ⟨read, rfl, h⟩
    | some payload =>
      cases htable : Table.ofBytes payload with
      | error e =>
        simp only [table?, Machine.tableOnce?, hpayload, hread, htable]
        rfl
      | ok table =>
        have hfound : m.table? id = .ok (some table) := by
          simp only [table?, hpayload, htable]
          rfl
        rw [hfound]
        refine ⟨(id, table) :: read, ?_, h.cons hfound⟩
        simp only [Machine.tableOnce?, hpayload, hread, htable]
        rfl

end Machine

namespace Recording

variable {bytes : List UInt8} {i : Nat} {m : Machine}

theorem resolveOnce_eq {read : List (Nat × Table)} (h : m.Coherent read) (frames : List Frame) :
    resolveOnce m read frames = frames.mapM m.place := by
  induction frames generalizing read with
  | nil => rfl
  | cons f rest ih =>
    have hstep := h.tableOnce? f.module
    rw [resolveOnce, List.mapM_cons, Machine.place]
    cases htable : m.table? f.module with
    | error e =>
      rw [htable] at hstep
      simp only at hstep
      rw [hstep]
      rfl
    | ok table? =>
      rw [htable] at hstep
      rcases hstep with ⟨read', hread, hcoherent⟩
      rw [hread, Except.ok_bind]
      simp only
      rw [ih hcoherent]
      rfl

theorem resolvedStackAt_eq (r : Recording) (i : Nat) :
    r.resolvedStackAt i
      = r.replay i >>= fun m => m.stack.frames.mapM m.place >>= fun frames => pure ⟨frames⟩ := rfl

/-- Reading no table twice makes no difference. -/
theorem resolvedOnceAt_eq (r : Recording) (i : Nat) : r.resolvedOnceAt i = r.resolvedStackAt i := by
  rw [resolvedOnceAt, resolvedStackAt_eq]
  cases r.replay i with
  | error e => rfl
  | ok m => rw [Except.ok_bind, Except.ok_bind, resolveOnce_eq m.coherent_nil]

/-! ## The tables that are needed -/

section Replayed

variable {f : Frame} {g : ResolvedFrame} {e : Error} (hm : (ofBytes bytes).replay i = .ok m)

include hm

/-- The table that a machine has for a module is read from the payload that came last. -/
theorem table?_eq_latest (id : Nat) :
    m.table? id =
      match latest? bytes i id with
      | none => .ok none
      | some payload => (Table.ofBytes payload).map some := by
  have hlast := Machine.lookup_run (replay_eq_ok.1 hm).1 id
  have hnone : Machine.start.tables.lookup id = none := rfl
  rw [hnone, Option.or_none] at hlast
  rw [Machine.table?, hlast]
  rfl

/-- A frame gets the place that the payload says. -/
theorem place_eq_ok : m.place f = .ok g ↔ f.PlacedBy (latest? bytes i f.module) g := by
  rw [Machine.place, table?_eq_latest hm]
  cases latest? bytes i f.module with
  | none =>
    constructor
    · intro h
      cases h
      exact ⟨rfl, rfl, rfl, rfl⟩
    · rcases g with ⟨module, function, block, source⟩
      rintro ⟨rfl, rfl, rfl, rfl⟩
      rfl
  | some payload =>
    constructor
    · intro h
      cases htable : Table.ofBytes payload with
      | error e =>
        simp only [htable] at h
        cases h
      | ok table =>
        simp only [htable] at h
        cases h
        exact ⟨rfl, rfl, rfl, table, htable, rfl⟩
    · rcases g with ⟨module, function, block, source⟩
      rintro ⟨rfl, rfl, rfl, table, htable, rfl⟩
      simp only [htable]
      rfl

theorem place_eq_error :
    m.place f = .error e ↔
      ∃ payload ∈ latest? bytes i f.module, Table.ofBytes payload = .error e := by
  rw [Machine.place, table?_eq_latest hm]
  cases latest? bytes i f.module with
  | none =>
    constructor
    · intro h
      cases h
    · rintro ⟨payload, hpayload, -⟩
      cases hpayload
  | some payload =>
    cases htable : Table.ofBytes payload with
    | error e' =>
      constructor
      · intro h
        simp only [htable] at h
        cases h
        exact ⟨payload, rfl, htable⟩
      · rintro ⟨payload', hpayload, he⟩
        cases hpayload
        cases htable.symm.trans he
        simp only [htable]
        rfl
    | ok table =>
      constructor
      · intro h
        simp only [htable] at h
        cases h
      · rintro ⟨payload', hpayload, he⟩
        cases hpayload
        cases htable.symm.trans he

theorem exists_place_iff : (∃ g, m.place f = .ok g) ↔ Legible bytes i f.module := by
  constructor
  · rintro ⟨g, hg⟩ payload hpayload
    cases htable : Table.ofBytes payload with
    | ok table => exact ⟨table, rfl⟩
    | error e =>
      cases hg.symm.trans ((place_eq_error hm).2 ⟨payload, hpayload, htable⟩)
  · intro hlegible
    cases hplace : m.place f with
    | ok g => exact ⟨g, rfl⟩
    | error e =>
      rcases (place_eq_error hm).1 hplace with ⟨payload, hpayload, he⟩
      rcases hlegible payload hpayload with ⟨table, htable⟩
      cases htable.symm.trans he

end Replayed

section Resolved

variable {resolved : ResolvedStack} {e : Error}

/-- Resolving a stack is resolving its frames. -/
theorem resolvedStackAt_eq_ok :
    (ofBytes bytes).resolvedStackAt i = .ok resolved ↔
      ∃ s, (ofBytes bytes).stackAt i = .ok s ∧
        List.Forall₂ (fun f g => f.PlacedBy (latest? bytes i f.module) g) s.frames
          resolved.frames := by
  rw [resolvedStackAt_eq, Except.bind_eq_ok]
  constructor
  · rintro ⟨m, hm, h⟩
    rcases Except.bind_eq_ok.1 h with ⟨frames, hframes, hresolved⟩
    cases hresolved
    refine ⟨m.stack, stackAt_eq_ok.2 ⟨m, hm, rfl⟩, (Except.mapM_eq_ok.1 hframes).imp ?_⟩
    exact fun f g => (place_eq_ok hm).1
  · rintro ⟨s, hs, hplaced⟩
    rcases stackAt_eq_ok.1 hs with ⟨m, hm, rfl⟩
    refine ⟨m, hm, Except.bind_eq_ok.2 ⟨_, Except.mapM_eq_ok.2 ?_, rfl⟩⟩
    exact hplaced.imp fun f g => (place_eq_ok hm).2

/-- What goes wrong first is reported: the replay, or else the outermost frame whose payload cannot
be read. -/
theorem resolvedStackAt_eq_error :
    (ofBytes bytes).resolvedStackAt i = .error e ↔
      (ofBytes bytes).stackAt i = .error e ∨
        ∃ s outer f inner, (ofBytes bytes).stackAt i = .ok s ∧
          s.frames = outer ++ f :: inner ∧ (∀ g ∈ outer, Legible bytes i g.module) ∧
          ∃ payload ∈ latest? bytes i f.module, Table.ofBytes payload = .error e := by
  rw [resolvedStackAt_eq, Except.bind_eq_error, stackAt_eq_error]
  refine or_congr_right ⟨?_, ?_⟩
  · rintro ⟨m, hm, h⟩
    have hframes : m.stack.frames.mapM m.place = .error e := by
      rcases Except.bind_eq_error.1 h with hframes | ⟨frames, -, hpure⟩
      · exact hframes
      · cases hpure
    rcases Except.mapM_eq_error.1 hframes with ⟨outer, f, inner, hsplit, houter, hf⟩
    exact ⟨m.stack, outer, f, inner, stackAt_eq_ok.2 ⟨m, hm, rfl⟩, hsplit,
      fun g hg => (exists_place_iff hm).1 (houter g hg), (place_eq_error hm).1 hf⟩
  · rintro ⟨s, outer, f, inner, hs, hsplit, houter, hf⟩
    rcases stackAt_eq_ok.1 hs with ⟨m, hm, rfl⟩
    refine ⟨m, hm, Except.bind_eq_error.2 (.inl (Except.mapM_eq_error.2 ?_))⟩
    exact ⟨outer, f, inner, hsplit, fun g hg => (exists_place_iff hm).2 (houter g hg),
      (place_eq_error hm).2 hf⟩

theorem exists_resolvedStackAt_iff :
    (∃ resolved, (ofBytes bytes).resolvedStackAt i = .ok resolved) ↔
      ∃ s, (ofBytes bytes).stackAt i = .ok s ∧ ∀ f ∈ s.frames, Legible bytes i f.module := by
  constructor
  · rintro ⟨resolved, h⟩
    rcases resolvedStackAt_eq_ok.1 h with ⟨s, hs, hplaced⟩
    rcases stackAt_eq_ok.1 hs with ⟨m, hm, rfl⟩
    refine ⟨m.stack, hs, fun f hf => (exists_place_iff hm).1 ?_⟩
    rcases List.forall₂_iff_get.1 hplaced with ⟨hlength, hget⟩
    rcases List.getElem_of_mem hf with ⟨k, hk, rfl⟩
    exact ⟨_, (place_eq_ok hm).2 (hget k hk (hlength ▸ hk))⟩
  · rintro ⟨s, hs, hlegible⟩
    cases hresolved : (ofBytes bytes).resolvedStackAt i with
    | ok resolved => exact ⟨resolved, rfl⟩
    | error e =>
      rcases resolvedStackAt_eq_error.1 hresolved with
        herror | ⟨s', outer, f, inner, hs', hsplit, -, payload, hpayload, he⟩
      · cases hs.symm.trans herror
      · cases hs.symm.trans hs'
        have hf : f ∈ s.frames := hsplit ▸ List.mem_append_right outer List.mem_cons_self
        rcases hlegible f hf payload hpayload with ⟨table, htable⟩
        cases htable.symm.trans he

end Resolved

/-- A stack is resolved if it is there and the payloads that came last for the modules of its open
calls can be read, and a call stands where that payload says, or nowhere if there is none.  What goes
wrong is what goes wrong with the stack, or else with the payload of the outermost call that has one
that cannot be read.  No table has to be read twice for that. -/
theorem resolvedStackAt_lazy (bytes : List UInt8) (i : Nat) :
    ((∃ resolved, (ofBytes bytes).resolvedStackAt i = .ok resolved) ↔
        ∃ s, (ofBytes bytes).stackAt i = .ok s ∧ ∀ f ∈ s.frames, Legible bytes i f.module) ∧
      (∀ resolved, (ofBytes bytes).resolvedStackAt i = .ok resolved ↔
        ∃ s, (ofBytes bytes).stackAt i = .ok s ∧
          List.Forall₂ (fun f g => f.PlacedBy (latest? bytes i f.module) g) s.frames
            resolved.frames) ∧
      (∀ e, (ofBytes bytes).resolvedStackAt i = .error e ↔
        (ofBytes bytes).stackAt i = .error e ∨
          ∃ s outer f inner, (ofBytes bytes).stackAt i = .ok s ∧
            s.frames = outer ++ f :: inner ∧ (∀ g ∈ outer, Legible bytes i g.module) ∧
            ∃ payload ∈ latest? bytes i f.module, Table.ofBytes payload = .error e) ∧
      (ofBytes bytes).resolvedOnceAt i = (ofBytes bytes).resolvedStackAt i := by
  exact ⟨exists_resolvedStackAt_iff, fun resolved => resolvedStackAt_eq_ok,
    fun e => resolvedStackAt_eq_error, resolvedOnceAt_eq _ i⟩

/-- Two bytes that are no table come for module 1, then a table that takes their place.  Its function
0 calls function 0 of module 2, for which two such bytes come as well. -/
def replacedTable : List UInt8 :=
  [0x01, 0xC1, 0, 0, 0, 2, 0x7B, 0x7D,
    0xC1, 0, 0, 0, 13, 0x5B, 0x5B, 0x22, 0x61, 0x22, 0x5D, 0x2C, 0x5B, 0x5B, 0x36, 0x5D, 0x5D, 0x5D,
    0x40, 0x02, 0xC1, 0, 0, 0, 2, 0x7B, 0x7D, 0x40]

-- what comes for module 2 does not matter before its first call
example : (ofBytes replacedTable).resolvedStackAt 5
    = .ok ⟨[⟨1, ⟨0, none, some ⟨"a", ⟨6, 0⟩⟩⟩⟩]⟩ := by decide

example : (ofBytes replacedTable).resolvedStackAt 6 = .error (.invalidTable .syntaxError) := rfl

end Recording

end Retrace
