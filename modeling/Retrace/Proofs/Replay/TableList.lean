import Retrace.Proofs.Distinct
import Retrace.Proofs.Replay.FirstTables

/-!
# TableList — all tables of a trace, and the table of one module

Replay keeps the table that came last for each module; a look for the table of one module ends at
the first that comes for it.

* `Machine.keys_run` — replay lists each module in the place of its first table;
* `Recording.lookup_tables` — the table listed for a module is the last one;
* `Recording.tableOf?_eq` — the one found for a module is the first;
* `Recording.tableOf?_tables` — so the two agree on a module if its first and its last table read
  alike, and on no other.
-/

namespace Retrace

open Trace

/-! ## The modules in their order -/

namespace Machine

variable {m m' : Machine} {index offset : Nat}

theorem map_fst_putTable (id : Nat) (payload : List UInt8) (tables : List (Nat × List UInt8)) :
    (putTable id payload tables).map Prod.fst
      = if id ∈ tables.map Prod.fst then tables.map Prod.fst else tables.map Prod.fst ++ [id] := by
  induction tables with
  | nil => rfl
  | cons entry rest ih =>
    rw [putTable]
    by_cases hid : entry.1 = id
    · simp [hid]
    · have hne : id ≠ entry.1 := fun h => hid h.symm
      rw [if_neg hid, List.map_cons, ih]
      by_cases hmem : id ∈ rest.map Prod.fst <;> simp [hne, hmem]

/-- An event with a table adds its owner to the modules that are listed, unless it is listed. -/
theorem keys_apply {e : Event} (h : m.apply index offset e = .ok m') {ids : List Nat}
    (hids : m.tables.map Prod.fst = ids.eraseDups) :
    m'.tables.map Prod.fst = (ids ++ (e.owner? m.active).toList).eraseDups := by
  -- all events but tables leave the list alone
  have hquiet : e.owner? m.active = none → m'.tables = m.tables →
      m'.tables.map Prod.fst = (ids ++ (e.owner? m.active).toList).eraseDups := by
    intro howner htables
    rw [howner, htables, hids, Option.toList_none, List.append_nil]
  cases e with
  | table payload =>
    rcases Except.bind_eq_ok.1 h with ⟨id, hid, hm'⟩
    cases hm'
    rw [Event.owner?, active_of_requireModule hid, Option.toList_some, eraseDups_concat,
      map_fst_putTable, hids]
    simp only [List.mem_eraseDups]
  | setModule id =>
    cases h
    exact hquiet rfl rfl
  | call function =>
    rcases Except.bind_eq_ok.1 h with ⟨id, -, hm'⟩
    cases hm'
    exact hquiet rfl rfl
  | block id =>
    rcases m with ⟨active, _ | ⟨top, frames⟩, tables⟩ <;> cases h <;> exact hquiet rfl rfl
  | ret =>
    rcases m with ⟨active, _ | ⟨top, frames⟩, tables⟩ <;> cases h
    exact hquiet rfl rfl

/-- The modules with tables are listed in the order of their first ones. -/
theorem keys_run {steps : List Step} (h : m.run index steps = .ok m') {ids : List Nat}
    (hids : m.tables.map Prod.fst = ids.eraseDups) :
    m'.tables.map Prod.fst = (ids ++ owners m.active (steps.map (·.event))).eraseDups := by
  induction steps generalizing m index ids with
  | nil =>
    cases h
    rw [hids, List.map_nil, owners, List.append_nil]
  | cons s rest ih =>
    rcases Except.bind_eq_ok.1 h with ⟨middle, happly, hrest⟩
    rw [ih hrest (keys_apply happly hids), active_apply happly, List.map_cons, owners,
      List.append_assoc]

end Machine

namespace Recording

variable {bytes : List UInt8} {listed : List (Nat × Table)}

/-! ## The last table and the first -/

/-- Tables that can all be read are listed under the same modules, each as it reads. -/
theorem listed_eq {tables : List (Nat × List UInt8)}
    (h : (tables.mapM fun (id, payload) => do pure (id, ← Table.ofBytes payload)) = .ok listed) :
    listed.map Prod.fst = tables.map Prod.fst ∧
      ∀ id, (listed.lookup id).map Except.ok = (tables.lookup id).map Table.ofBytes := by
  induction tables generalizing listed with
  | nil =>
    cases h
    exact ⟨rfl, fun id => rfl⟩
  | cons entry rest ih =>
    rcases entry with ⟨key, payload⟩
    rw [List.mapM_cons] at h
    rcases Except.bind_eq_ok.1 h with ⟨head, hhead, h⟩
    rcases Except.bind_eq_ok.1 h with ⟨others, hothers, h⟩
    rcases Except.bind_eq_ok.1 hhead with ⟨table, htable, hhead⟩
    cases hhead
    cases h
    rcases ih hothers with ⟨hkeys, hlookup⟩
    refine ⟨by rw [List.map_cons, List.map_cons, hkeys], fun id => ?_⟩
    rw [List.lookup_cons, List.lookup_cons]
    cases id == key with
    | true => exact congrArg some htable.symm
    | false => exact hlookup id

section Listed

variable (h : (ofBytes bytes).tables = .ok listed)

include h

/-- Tables are listed only if the whole trace can be read and replayed. -/
theorem exists_replayed : ∃ m, Machine.start.run 0 (Trace.walk bytes).steps = .ok m ∧
    (Trace.walk bytes).error? = none ∧
    (m.tables.mapM fun (id, payload) => do pure (id, ← Table.ofBytes payload)) = .ok listed := by
  rcases Except.bind_eq_ok.1 h with ⟨m, hreplay, hlisted⟩
  rcases Except.bind_eq_ok.1 hreplay with ⟨m', hrun, hreplay⟩
  rcases Except.bind_eq_ok.1 hreplay with ⟨_, hend, hm⟩
  cases hm
  refine ⟨m, hrun, ?_, hlisted⟩
  rw [checkEnd_eq] at hend
  cases herror : (Trace.walk bytes).error? with
  | none => rfl
  | some e =>
    rw [herror] at hend
    cases hend

theorem decode_of_tables : decode bytes = .ok ((Trace.walk bytes).steps.map (·.event)) := by
  rcases exists_replayed h with ⟨m, -, hall, -⟩
  simp only [decode, hall]

theorem map_fst_tables : listed.map Prod.fst
    = (owners none ((Trace.walk bytes).steps.map (·.event))).eraseDups := by
  rcases exists_replayed h with ⟨m, hrun, -, hlisted⟩
  have hnone : Machine.start.tables.map Prod.fst = ([] : List Nat).eraseDups := rfl
  rw [(listed_eq hlisted).1, Machine.keys_run hrun hnone, List.nil_append]
  rfl

/-- The table that is listed for a module is the last one. -/
theorem lookup_tables (id : Nat) : (listed.lookup id).map Except.ok
    = (payloads id none ((Trace.walk bytes).steps.map (·.event))).getLast?.map Table.ofBytes := by
  rcases exists_replayed h with ⟨m, hrun, -, hlisted⟩
  have hlast := Machine.lookup_run hrun id
  rw [(listed_eq hlisted).2 id, hlast]
  exact congrArg _ Option.or_none

/-- The table that is found for a module is the first one. -/
theorem tableOf?_eq (id : Nat) : (ofBytes bytes).tableOf? id
    = match (payloads id none ((Trace.walk bytes).steps.map (·.event))).head? with
      | some first => (Table.ofBytes first).map some
      | none => .ok none := by
  have hhead : firstPayload? id none (ofBytes bytes).walk.steps
      = (payloads id none ((Trace.walk bytes).steps.map (·.event))).head? :=
    firstPayload?_eq id none _
  rw [tableOf?, hhead, checkEnd_of_decode (decode_of_tables h)]
  rfl

theorem tableOf?_eq_some_iff {id : Nat} {table : Table} :
    (ofBytes bytes).tableOf? id = .ok (some table) ↔
      (payloads id none ((Trace.walk bytes).steps.map (·.event))).head?.map Table.ofBytes
        = some (.ok table) := by
  rw [tableOf?_eq h]
  cases (payloads id none ((Trace.walk bytes).steps.map (·.event))).head? with
  | none => simp
  | some first => cases hfirst : Table.ofBytes first <;> simp [hfirst, Except.map]

theorem nodup_tables : (listed.map Prod.fst).Nodup := by
  rw [map_fst_tables h]
  exact nodup_eraseDups _

theorem mem_tables_iff {id : Nat} {table : Table} : (id, table) ∈ listed ↔
    (payloads id none ((Trace.walk bytes).steps.map (·.event))).getLast?.map Table.ofBytes
      = some (.ok table) := by
  rw [mem_iff_lookup (nodup_tables h), ← lookup_tables h id, Option.map_eq_some_iff]
  constructor
  · exact fun hlookup => ⟨table, hlookup, rfl⟩
  · rintro ⟨found, hlookup, hfound⟩
    cases hfound
    exact hlookup

/-- No table is found for a module that is not listed, and for no other. -/
theorem tableOf?_eq_none_iff (id : Nat) :
    (ofBytes bytes).tableOf? id = .ok none ↔ id ∉ listed.map Prod.fst := by
  have hlast := lookup_tables h id
  rw [tableOf?_eq h, ← lookup_eq_none_iff_notMem]
  cases hpayloads : payloads id none ((Trace.walk bytes).steps.map (·.event)) with
  | nil =>
    rw [hpayloads] at hlast
    exact ⟨fun _ => Option.map_eq_none_iff.1 hlast, fun _ => rfl⟩
  | cons first rest =>
    rw [hpayloads, List.getLast?_cons] at hlast
    constructor
    · intro hnone
      rw [List.head?_cons] at hnone
      cases hfirst : Table.ofBytes first <;> simp [hfirst, Except.map] at hnone
    · intro hnone
      rw [hnone] at hlast
      cases hlast

/-- A module has the same table in the list and on its own if its first and its last payload read
alike. -/
theorem agree_iff (id : Nat) :
    (∀ table, (ofBytes bytes).tableOf? id = .ok (some table) ↔ (id, table) ∈ listed) ↔
      (payloads id none ((Trace.walk bytes).steps.map (·.event))).head?.map Table.ofBytes
        = (payloads id none ((Trace.walk bytes).steps.map (·.event))).getLast?.map
            Table.ofBytes := by
  constructor
  · intro hagree
    have hlast := lookup_tables h id
    cases hlookup : listed.lookup id with
    | none =>
      rw [hlookup] at hlast
      have hnil := List.getLast?_eq_none_iff.1 (Option.map_eq_none_iff.1 hlast.symm)
      rw [hnil]
      rfl
    | some table =>
      have hmem := (mem_iff_lookup (nodup_tables h)).2 hlookup
      exact ((tableOf?_eq_some_iff h).1 ((hagree table).2 hmem)).trans
        ((mem_tables_iff h).1 hmem).symm
  · intro heq table
    rw [tableOf?_eq_some_iff h, mem_tables_iff h, heq]

end Listed

/-- If all tables of a trace can be listed, each module is listed once, in the order of their first
tables, and a module on its own has a table if it is listed.  It is the one in the list if the first
and the last table of the module read alike, as they do where each module has but one. -/
theorem tableOf?_tables (h : (ofBytes bytes).tables = .ok listed) :
    ∃ events, Trace.decode bytes = .ok events ∧
      (listed.map Prod.fst).Nodup ∧
      listed.map Prod.fst = (owners none events).eraseDups ∧
      (∀ id, (ofBytes bytes).tableOf? id = .ok none ↔ id ∉ listed.map Prod.fst) ∧
      (∀ id, (∀ table, (ofBytes bytes).tableOf? id = .ok (some table) ↔ (id, table) ∈ listed) ↔
        (payloads id none events).head?.map Table.ofBytes
          = (payloads id none events).getLast?.map Table.ofBytes) ∧
      (TablesFirst events →
        ∀ id table, (ofBytes bytes).tableOf? id = .ok (some table) ↔ (id, table) ∈ listed) := by
  refine ⟨_, decode_of_tables h, nodup_tables h, map_fst_tables h, tableOf?_eq_none_iff h,
    agree_iff h, fun hfirst id => (agree_iff h id).2 ?_⟩
  cases hpayloads : payloads id none ((Trace.walk bytes).steps.map (·.event)) with
  | nil => rfl
  | cons payload rest =>
    have hone := hfirst.payloads_eq_singleton (hpayloads ▸ List.mem_cons_self)
    rw [hpayloads] at hone
    rw [hone]
    rfl

/-- A table with one source path, a single letter, and no functions. -/
def pathTable (letter : UInt8) : List UInt8 :=
  [0xC1, 0, 0, 0, 10, 0x5B, 0x5B, 0x22, letter, 0x22, 0x5D, 0x2C, 0x5B, 0x5D, 0x5D]

/-- Module 2 has a table, then module 1, then module 2 the same once more. -/
theorem tableOf?_tables_repeated :
    ∃ events, Trace.decode
        ([0x02] ++ pathTable 0x62 ++ [0x01] ++ pathTable 0x61 ++ [0x02] ++ pathTable 0x62)
          = .ok events ∧
      owners none events = [2, 1, 2] ∧
      ∀ table, (ofBytes ([0x02] ++ pathTable 0x62 ++ [0x01] ++ pathTable 0x61 ++ [0x02]
        ++ pathTable 0x62)).tableOf? 2 = .ok (some table) ↔
          (2, table) ∈ [(2, ⟨["b"], []⟩), (1, ⟨["a"], []⟩)] := by
  have htables : (ofBytes ([0x02] ++ pathTable 0x62 ++ [0x01] ++ pathTable 0x61 ++ [0x02]
      ++ pathTable 0x62)).tables = .ok [(2, ⟨["b"], []⟩), (1, ⟨["a"], []⟩)] := by decide
  rcases tableOf?_tables htables with ⟨events, hdecode, -, -, -, hagree, -⟩
  cases hdecode.symm.trans rfl
  exact ⟨_, hdecode, rfl, (hagree 2).2 rfl⟩

/-- Where a later table takes the place of another, the earlier one is found for the module, and if
it cannot be read nothing is. -/
theorem tableOf?_replaced :
    (ofBytes ([0x01] ++ pathTable 0x61 ++ pathTable 0x62)).tables = .ok [(1, ⟨["b"], []⟩)] ∧
      (ofBytes ([0x01] ++ pathTable 0x61 ++ pathTable 0x62)).tableOf? 1
        = .ok (some ⟨["a"], []⟩) ∧
      (ofBytes ([0x01] ++ [0xC1, 0, 0, 0, 2, 0x7B, 0x7D] ++ pathTable 0x62)).tables
        = .ok [(1, ⟨["b"], []⟩)] ∧
      (ofBytes ([0x01] ++ [0xC1, 0, 0, 0, 2, 0x7B, 0x7D] ++ pathTable 0x62)).tableOf? 1
        = .error (.invalidTable .syntaxError) :=
  ⟨by decide, by decide, by decide, rfl⟩

end Recording

end Retrace
