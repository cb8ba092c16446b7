import Retrace.Proofs.Replay.LiveStack
import Retrace.Proofs.Trace.Declarations

/-!
# Resolved — places survive from their declaration to the replay

* `Trace.Tabled` — in some events every table is the right one, and comes before the calls that
  need it;
* `Recorder.Follows.tabled` — what a recorder writes is such a trace;
* `Machine.Knows.run` — a machine that replays a part of one knows the table of every open call;
* `Recording.resolvedStackAt_run` — every frame of a stack in a recorded trace stands where its
  function or block was declared to stand.
-/

namespace Retrace

/-! ## Traces with their tables -/

namespace Trace

variable {payload : Nat → List UInt8} {active : Option Nat} {known known' : List Nat}
  {events : List Event}

/-- Every table is the one that `payload` has for the active module, and no function is called while
that is missing.  Tables of the modules in `known` have come before. -/
def Tabled (payload : Nat → List UInt8) (active : Option Nat) (known : List Nat) :
    List Event → Prop
  | [] => True
  | .setModule m :: rest => Tabled payload (some m) known rest
  | .table bytes :: rest =>
    ∃ m ∈ active, bytes = payload m ∧ Tabled payload active (m :: known) rest
  | .call _ :: rest => (∃ m ∈ active, m ∈ known) ∧ Tabled payload active known rest
  | .block _ :: rest => Tabled payload active known rest
  | .ret :: rest => Tabled payload active known rest

theorem Tabled.mono (h : Tabled payload active known events) (hknown : known ⊆ known') :
    Tabled payload active known' events := by
  induction events generalizing active known known' with
  | nil => trivial
  | cons e rest ih =>
    cases e with
    | setModule m => exact ih h hknown
    | table bytes =>
      rcases h with ⟨m, hm, hbytes, hrest⟩
      exact ⟨m, hm, hbytes, ih hrest (List.cons_subset_cons m hknown)⟩
    | call f =>
      rcases h with ⟨⟨m, hm, hmem⟩, hrest⟩
      exact ⟨⟨m, hm, hknown hmem⟩, ih hrest hknown⟩
    | block id => exact ih h hknown
    | ret => exact ih h hknown

/-- The first events of such a trace are one. -/
theorem Tabled.of_append {more : List Event} (h : Tabled payload active known (events ++ more)) :
    Tabled payload active known events := by
  induction events generalizing active known with
  | nil => trivial
  | cons e rest ih =>
    cases e with
    | setModule m => exact ih h
    | table bytes =>
      rcases h with ⟨m, hm, hbytes, hrest⟩
      exact ⟨m, hm, hbytes, ih hrest⟩
    | call f => exact ⟨h.1, ih h.2⟩
    | block id => exact ih h
    | ret => exact ih h

theorem Tabled.take (h : Tabled payload active known events) (n : Nat) :
    Tabled payload active known (events.take n) := by
  rw [← List.take_append_drop n events] at h
  exact h.of_append

end Trace

/-! ## Recording one -/

namespace Outcome

variable {payload : Nat → List UInt8} {entered : List Nat} {rest : List Event}

/-- What a call that enters `m` writes makes `m` the active module, with its table in place. -/
theorem tabled_enter {m f : Nat} {answers : List (Nat × Except Error Table)}
    (htable : m ∉ entered → ∃ table,
      (⟨.enter m f, .ok (), answers⟩ : Outcome).table? = some table ∧ table.toBytes = payload m)
    (hrest : Trace.Tabled payload (some m) (entered ++ [m]) rest) :
    Trace.Tabled payload entered.getLast? entered
      ((⟨.enter m f, .ok (), answers⟩ : Outcome).events entered ++ rest) := by
  simp only [events]
  by_cases hmem : m ∈ entered
  · have hsubset : entered ++ [m] ⊆ entered :=
      List.append_subset.2 ⟨List.Subset.refl _, by simpa using hmem⟩
    have hcall : Trace.Tabled payload (some m) entered (.call f :: rest) :=
      ⟨⟨m, rfl, hmem⟩, hrest.mono hsubset⟩
    rw [if_pos hmem]
    by_cases hlast : entered.getLast? = some m
    · rw [if_pos hlast, hlast]
      exact hcall
    · rw [if_neg hlast]
      exact hcall
  · -- a module that was not entered before cannot be the active one
    have hlast : entered.getLast? ≠ some m := fun hlast => hmem (List.mem_of_getLast? hlast)
    have hsubset : entered ++ [m] ⊆ m :: entered :=
      List.append_subset.2 ⟨List.subset_cons_self m entered, by simp⟩
    rcases htable hmem with ⟨table, htable, hbytes⟩
    rw [if_neg hmem, if_neg hlast, htable]
    exact ⟨m, rfl, hbytes, ⟨m, rfl, List.mem_cons_self⟩, hrest.mono hsubset⟩

theorem tabled_events (o : Outcome)
    (htable : ∀ m ∈ o.entered?, m ∉ entered →
      ∃ table, o.table? = some table ∧ table.toBytes = payload m)
    (hrest : Trace.Tabled payload (entered ++ o.entered?.toList).getLast?
      (entered ++ o.entered?.toList) rest) :
    Trace.Tabled payload entered.getLast? entered (o.events entered ++ rest) := by
  refine o.events_append ?_ (fun id hrest => hrest) (fun hrest => hrest) hrest
  rintro m f answers rfl hrest
  exact tabled_enter (htable m rfl) hrest

end Outcome

/-- What a recorder writes has every table in its place, if the supplier has one for each module. -/
theorem Recorder.Follows.tabled {σ : Type} {ask : Supplier σ} {r : Recorder σ} {entered : List Nat}
    {payload : Nat → List UInt8} (h : r.Follows entered)
    (hask : ∀ s m table, (ask s m).1 = .ok table → table.toBytes = payload m) {calls : List Call}
    (hsmall : ∀ o ∈ r.outcomes ask calls, o.Small) :
    Trace.Tabled payload entered.getLast? entered
      (History.eventsFrom entered (r.outcomes ask calls)) := by
  induction calls generalizing r entered with
  | nil => trivial
  | cons c calls ih =>
    have hstep := h.record (hsmall _ List.mem_cons_self)
    have hrest := ih hstep.follows fun o ho => hsmall o (List.mem_cons_of_mem _ ho)
    refine Outcome.tabled_events _ ?_ hrest
    -- a new module's table is the supplier's answer
    intro m hm hnew
    rcases hstep.supplied m hm hnew with ⟨table, hanswers⟩
    have hmem : (m, .ok table) ∈ (r.outcome ask c).answers := by
      rw [hanswers]
      exact List.mem_singleton_self _
    rcases Recorder.answered ask r c _ hmem with ⟨s, hs⟩
    refine ⟨table, ?_, hask s m table hs⟩
    rw [Outcome.table?, hanswers]
    rfl

/-! ## Replaying one -/

namespace Machine

variable {payload : Nat → List UInt8} {known : List Nat} {m m' : Machine}

/-- The machine has the tables of the modules in `known`, which are those of all open calls at
least. -/
structure Knows (payload : Nat → List UInt8) (known : List Nat) (m : Machine) : Prop where
  tables : ∀ id ∈ known, m.tables.lookup id = some (payload id)
  frames : ∀ f ∈ m.frames, f.module ∈ known

theorem Knows.putTable {tables : List (Nat × List UInt8)}
    (h : ∀ id ∈ known, tables.lookup id = some (payload id)) (new : Nat) :
    ∀ id ∈ new :: known, (Machine.putTable new (payload new) tables).lookup id
      = some (payload id) := by
  intro id hid
  by_cases hnew : id = new
  · rw [hnew]
    exact lookup_putTable_self new (payload new) tables
  · rw [lookup_putTable_of_ne hnew]
    exact h id ((List.mem_cons.1 hid).resolve_left hnew)

theorem knows_start (payload : Nat → List UInt8) : start.Knows payload [] := by
  constructor
  · intro id hid
    cases hid
  · intro f hf
    cases hf

/-- After one event there still is a known table for every open call. -/
theorem Knows.apply (h : m.Knows payload known) {e : Event} {rest : List Event}
    (htabled : Trace.Tabled payload m.active known (e :: rest)) {index offset : Nat}
    (happly : m.apply index offset e = .ok m') :
    ∃ known', m'.Knows payload known' ∧ Trace.Tabled payload m'.active known' rest := by
  cases e with
  | setModule id =>
    cases happly
    exact ⟨known, ⟨h.tables, h.frames⟩, htabled⟩
  | table bytes =>
    rcases htabled with ⟨id, hid, rfl, hrest⟩
    rcases Except.bind_eq_ok.1 happly with ⟨active, hactive, hm'⟩
    rw [requireModule, hid] at hactive
    cases hactive
    cases hm'
    refine ⟨id :: known, ⟨Knows.putTable h.tables id, ?_⟩, hrest⟩
    intro f hf
    exact List.mem_cons_of_mem id (h.frames f hf)
  | call function =>
    rcases htabled with ⟨⟨id, hid, hknown⟩, hrest⟩
    rcases Except.bind_eq_ok.1 happly with ⟨active, hactive, hm'⟩
    rw [requireModule, hid] at hactive
    cases hactive
    cases hm'
    refine ⟨known, ⟨h.tables, ?_⟩, hrest⟩
    intro f hf
    rcases List.mem_cons.1 hf with rfl | hf
    · exact hknown
    · exact h.frames f hf
  | block id =>
    rcases m with ⟨active, _ | ⟨top, frames⟩, tables⟩
    · cases happly
      exact ⟨known, h, htabled⟩
    · cases happly
      refine ⟨known, ⟨h.tables, ?_⟩, htabled⟩
      -- the innermost call keeps its module
      intro f hf
      rcases List.mem_cons.1 hf with rfl | hf
      · exact h.frames top List.mem_cons_self
      · exact h.frames f (List.mem_cons_of_mem top hf)
  | ret =>
    rcases m with ⟨active, _ | ⟨top, frames⟩, tables⟩
    · cases happly
    · cases happly
      refine ⟨known, ⟨h.tables, ?_⟩, htabled⟩
      intro f hf
      exact h.frames f (List.mem_cons_of_mem top hf)

/-- And so there is after any number of events. -/
theorem Knows.run (h : m.Knows payload known) {events : List Event}
    (htabled : Trace.Tabled payload m.active known events) {index offset : Nat}
    (hrun : m.run index (Trace.stepsFrom offset events) = .ok m') :
    ∃ known', m'.Knows payload known' := by
  induction events generalizing m known index offset with
  | nil =>
    cases hrun
    exact ⟨known, h⟩
  | cons e rest ih =>
    rcases Except.bind_eq_ok.1 hrun with ⟨middle, happly, hrest⟩
    rcases h.apply htabled happly with ⟨known', hmiddle, htabled'⟩
    exact ih hmiddle htabled' hrest

/-- Every open call is resolved by the table of its module, if the tables can be read. -/
theorem Knows.resolve (h : m.Knows payload known) {tables : Nat → Table}
    (hread : ∀ id, Table.ofBytes (payload id) = .ok (tables id)) :
    m.stack.frames.mapM (fun f => do pure (f.resolve (← m.table? f.module)))
      = (.ok (m.stack.frames.map fun f => f.resolve (some (tables f.module))) :
          Except Error (List ResolvedFrame)) := by
  refine Except.mapM_ok ?_
  intro f hf
  have hf : f ∈ m.frames := List.mem_reverse.1 hf
  have htable : m.table? f.module = .ok (some (tables f.module)) := by
    rw [Machine.table?, h.tables f.module (h.frames f hf)]
    simp only [hread]
    rfl
  rw [htable, Except.ok_bind]
  rfl

end Machine

/-! ## The whole way -/

/-- A generated file, and what is declared of it. -/
structure Module where
  generated : String
  declarations : List (Resolver × Declaration)

namespace Module

def declarationsAfter (m : Module) : Declarations :=
  (Declarations.start m.generated).run m.declarations

def table (m : Module) : Table := m.declarationsAfter.table

/-- Everything that was declared, with the places it was given. -/
def declared (m : Module) : List Declared :=
  (Declarations.start m.generated).declared m.declarations

/-- Lines, columns, the number of paths and the length of the table have 32 bits. -/
structure Fits (m : Module) : Prop where
  paths : m.table.paths.length < 0x100000000
  positions : ∀ x ∈ m.declared, x.source.pos.Fits
  bytes : m.table.toBytes.length < 0x100000000

theorem declares (m : Module) : m.declarationsAfter.Declares m.declared :=
  Declarations.declares_run m.generated m.declarations

theorem ofBytes_toBytes {m : Module} (h : m.Fits) : Table.ofBytes m.table.toBytes = .ok m.table :=
  m.declares.ofBytes_toBytes h.paths h.positions

end Module

/-- The frame without its place. -/
def ResolvedFrame.frame (f : ResolvedFrame) : Frame := ⟨f.module, f.place.function, f.place.block⟩

/-- A resolved frame stands where its function or block was declared, and nowhere if it was not. -/
structure ResolvedFrame.Placed (modules : Nat → Module) (f : ResolvedFrame) : Prop where
  declared : ∀ x ∈ (modules f.module).declared,
    x.function = f.place.function → x.block = f.place.block → f.place.source = some x.source
  undeclared : (∀ x ∈ (modules f.module).declared,
    x.function = f.place.function → x.block ≠ f.place.block) → f.place.source = none

theorem Frame.placed_resolve (modules : Nat → Module) (f : Frame) :
    (f.resolve (some (modules f.module).table)).Placed modules := by
  constructor
  · rintro x hx hfunction hblock
    have hlocate := (modules f.module).declares.locate_of_mem hx
    have hfunction : x.function = f.function := hfunction
    have hblock : x.block = f.block := hblock
    rw [hfunction, hblock] at hlocate
    exact congrArg Place.source hlocate
  · intro hno
    exact congrArg Place.source ((modules f.module).declares.locate_of_not_mem hno)

namespace Recording

variable {σ : Type} {ask : Supplier σ} {supply : σ} {calls : List Call}

/-- A question about a recorded trace has an answer, from a machine that knows the tables it
needs. -/
theorem replay_knows {payload : Nat → List UInt8}
    (hsmall : ∀ o ∈ (Recorder.start supply).outcomes ask calls, o.Small)
    (hask : ∀ s m table, (ask s m).1 = .ok table → table.toBytes = payload m)
    (hlive : History.live? [] ((Recorder.start supply).outcomes ask calls) ≠ none) (i : Nat) :
    ∃ m known, (ofBytes ((Recorder.start supply).run ask calls).bytes).replay i = .ok m ∧
      m.Knows payload known := by
  have htabled : Trace.Tabled payload none []
      (History.events ((Recorder.start supply).outcomes ask calls)) :=
    (Recorder.follows_start supply).tabled hask hsmall
  rcases Option.ne_none_iff_exists'.1 hlive with ⟨frames, hframes⟩
  rcases History.exists_run_take hframes (i + 1) with ⟨m, hm⟩
  -- and what has been replayed is a trace with its tables, too
  rcases (Machine.knows_start payload).run (htabled.take (i + 1)) hm with ⟨known, hknows⟩
  refine ⟨m, known, ?_, hknows⟩
  rw [replay_run hsmall, hm]

/-- In a trace whose tables are those of `modules`, a question about any time has an answer, and
every frame in it stands where the resolver placed its declaration. -/
theorem resolvedStackAt_run (modules : Nat → Module) (ask : Supplier σ) (supply : σ)
    (calls : List Call) (hfits : ∀ m, (modules m).Fits)
    (hask : ∀ s m table, (ask s m).1 = .ok table → table = (modules m).table)
    (hlive : History.live? [] ((Recorder.start supply).outcomes ask calls) ≠ none) (i : Nat) :
    ∃ stack resolved,
      (ofBytes ((Recorder.start supply).run ask calls).bytes).stackAt i = .ok stack ∧
        (ofBytes ((Recorder.start supply).run ask calls).bytes).resolvedStackAt i = .ok resolved ∧
        resolved.frames.map ResolvedFrame.frame = stack.frames ∧
        ∀ f ∈ resolved.frames, f.Placed modules := by
  have hsmall : ∀ o ∈ (Recorder.start supply).outcomes ask calls, o.Small := by
    intro o ho m table hanswer
    rcases Recorder.answered_of_mem ho _ hanswer with ⟨s, hs⟩
    rw [hask s m table hs]
    exact (hfits m).bytes
  have hpayload : ∀ s m table, (ask s m).1 = .ok table →
      table.toBytes = (modules m).table.toBytes := by
    intro s m table hs
    rw [hask s m table hs]
  rcases replay_knows hsmall hpayload hlive i with ⟨m, known, hreplay, hknows⟩
  have hresolve := hknows.resolve fun id => Module.ofBytes_toBytes (hfits id)
  refine ⟨m.stack, ⟨m.stack.frames.map fun f => f.resolve (some (modules f.module).table)⟩,
    ?_, ?_, ?_, ?_⟩
  · rw [stackAt, hreplay, Except.ok_bind]
    rfl
  · rw [resolvedStackAt, hreplay, Except.ok_bind, hresolve, Except.ok_bind]
    rfl
  · rw [List.map_map]
    exact List.map_id _
  · intro f hf
    rcases List.mem_map.1 hf with ⟨frame, -, rfl⟩
    exact frame.placed_resolve modules

/-- A module with sources for the first line of its generated file, and one without a resolver. -/
def twoModules : Nat → Module
  | 0 =>
    let resolve : Resolver := fun p =>
      .ok (if p.line = 0 then some ⟨"a.ts", ⟨70000, p.column⟩⟩ else none)
    ⟨"out.js",
      [(resolve, .function ⟨0, 4⟩), (resolve, .block 3 ⟨2, 2⟩), (resolve, .block 0 ⟨1, 0⟩)]⟩
  | _ => ⟨"lib.js", [(fun _ => .ok none, .function ⟨2, 3⟩)]⟩

theorem fits_twoModules (m : Nat) : (twoModules m).Fits := by
  cases m with
  | zero =>
    have hdeclared : (twoModules 0).declared
        = [⟨0, none, ⟨"a.ts", ⟨70000, 4⟩⟩⟩, ⟨0, some 0, ⟨"out.js", ⟨1, 0⟩⟩⟩] := by decide +kernel
    refine ⟨by decide +kernel, ?_, by decide +kernel⟩
    rw [hdeclared]
    intro x hx
    simp only [List.mem_cons, List.not_mem_nil, or_false] at hx
    rcases hx with rfl | rfl
    · exact ⟨by decide, by decide⟩
    · exact ⟨by decide, by decide⟩
  | succ m =>
    have hdeclared : (twoModules (m + 1)).declared = [⟨0, none, ⟨"lib.js", ⟨2, 3⟩⟩⟩] := rfl
    refine ⟨?_, ?_, ?_⟩
    · exact (by decide +kernel : (twoModules 1).table.paths.length < 0x100000000)
    · rw [hdeclared]
      intro x hx
      cases List.mem_singleton.1 hx
      exact ⟨by decide, by decide⟩
    · exact (by decide +kernel : (twoModules 1).table.toBytes.length < 0x100000000)

theorem resolvedStackAt_run_twoModules :
    ∃ resolved,
      (ofBytes ((Recorder.start ()).run (fun _ m => (.ok (twoModules m).table, ()))
          [.enter 0 0, .block 0, .enter 1 0, .enter 1 5]).bytes).resolvedStackAt 7 = .ok resolved ∧
        resolved.frames.map ResolvedFrame.frame = [⟨0, 0, some 0⟩, ⟨1, 0, none⟩, ⟨1, 5, none⟩] ∧
        ∀ f ∈ resolved.frames, f.Placed twoModules := by
  have hask : ∀ (s : Unit) (m : Nat) (table : Table),
      ((fun _ m => (.ok (twoModules m).table, ()) : Supplier Unit) s m).1 = .ok table →
        table = (twoModules m).table := by
    intro s m table h
    exact (Except.ok.inj h).symm
  have hlive : History.live? [] ((Recorder.start ()).outcomes
      (fun _ m => (.ok (twoModules m).table, ()))
      [.enter 0 0, .block 0, .enter 1 0, .enter 1 5]) ≠ none := by decide +kernel
  obtain ⟨stack, resolved, hstack, hresolved, hframes, hplaced⟩ :=
    resolvedStackAt_run twoModules _ () _ fits_twoModules hask hlive 7
  have hdepth : (ofBytes ((Recorder.start ()).run (fun _ m => (.ok (twoModules m).table, ()))
      [.enter 0 0, .block 0, .enter 1 0, .enter 1 5]).bytes).stackAt 7
        = .ok ⟨[⟨0, 0, some 0⟩, ⟨1, 0, none⟩, ⟨1, 5, none⟩]⟩ := rfl
  refine ⟨resolved, hresolved, ?_, hplaced⟩
  rw [hdepth] at hstack
  cases hstack
  exact hframes

end Recording

end Retrace
