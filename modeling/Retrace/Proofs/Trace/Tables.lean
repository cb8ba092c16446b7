import Retrace.Proofs.Trace.History
import Retrace.Proofs.Trace.Matching

/-!
# Tables — where the tables of a trace stand

* `Trace.payloads` — the payloads that come for a module, in their order;
* `Trace.owners` — the modules for which tables come, in the order of the tables;
* `Trace.TablesFirst` — each table is the first of its module, and comes before its calls;
* `Trace.TablesFirst.payloads_eq_nil` — after a table or a call of a module no table comes for it;
* `Trace.Orderly` — the same going from event to event, with the modules used so far kept in mind;
* `History.tablesFirst_events` — what the calls of a run write is such a trace.
-/

namespace Retrace

/-- The payload of an event, if it is a table and comes while module `id` is active. -/
def Event.payload? (id : Nat) (active : Option Nat) : Event → Option (List UInt8)
  | .table payload => if active = some id then some payload else none
  | _ => none

/-- The module that an event brings a table for, where `active` is the active one. -/
def Event.owner? (active : Option Nat) : Event → Option Nat
  | .table _ => active
  | _ => none

namespace Trace

variable {events front rest : List Event} {e : Event} {active : Option Nat} {id : Nat}
  {payload : List UInt8}

theorem active?_append (events events' : List Event) :
    active? (events ++ events') = (active? events').or (active? events) := by
  rw [active?, List.filterMap_append, List.getLast?_append]
  rfl

theorem active?_cons (e : Event) (rest : List Event) :
    active? (e :: rest) = (active? rest).or e.module? := by
  have hone : active? [e] = e.module? := by cases e <;> rfl
  rw [← List.singleton_append, active?_append, hone]

/-! ## The payloads of a module -/

/-- The payloads that come while module `id` is active, where `active` is so before all events. -/
def payloads (id : Nat) (active : Option Nat) : List Event → List (List UInt8)
  | [] => []
  | e :: rest => (e.payload? id active).toList ++ payloads id (e.module?.or active) rest

theorem payloads_append (id : Nat) (active : Option Nat) (events events' : List Event) :
    payloads id active (events ++ events')
      = payloads id active events ++ payloads id ((active? events).or active) events' := by
  induction events generalizing active with
  | nil => rfl
  | cons e rest ih =>
    rw [List.cons_append, payloads, payloads, ih, active?_cons, Option.or_assoc, List.append_assoc]

/-- A payload of a module comes with a table while the module is active. -/
theorem exists_split_of_mem_payloads (h : payload ∈ payloads id active events) :
    ∃ front rest, events = front ++ .table payload :: rest ∧
      (active? front).or active = some id := by
  induction events generalizing active with
  | nil => cases h
  | cons e rest ih =>
    rcases List.mem_append.1 h with h | h
    · cases e with
      | table bytes =>
        rw [Event.payload?] at h
        by_cases hactive : active = some id
        · rw [if_pos hactive, Option.mem_toList] at h
          cases h
          exact ⟨[], rest, rfl, hactive⟩
        · rw [if_neg hactive] at h
          cases h
      | _ => cases h
    · rcases ih h with ⟨front, rest', rfl, hactive⟩
      refine ⟨e :: front, rest', rfl, ?_⟩
      rw [active?_cons, Option.or_assoc]
      exact hactive

/-- The modules for which tables come, one entry for each table, where `active` is so before all
events. -/
def owners (active : Option Nat) : List Event → List Nat
  | [] => []
  | e :: rest => (e.owner? active).toList ++ owners (e.module?.or active) rest

/-! ## Tables that come first -/

/-- Each table is the first of its module, and no function of the module is called before it. -/
def TablesFirst (events : List Event) : Prop :=
  ∀ k < events.length, ∀ j < k,
    events[k]?.bind Event.use? = some .table ∧ (active? (events.take k)).isSome ∧
        active? (events.take j) = active? (events.take k) →
      events[j]?.bind Event.use? = none

instance (events : List Event) : Decidable (TablesFirst events) :=
  inferInstanceAs (Decidable (∀ k < events.length, ∀ j < k, _ → _))

theorem TablesFirst.payloads_eq_nil (h : TablesFirst (front ++ e :: rest))
    (hactive : active? front = some id) (huse : e.use? ≠ none) :
    payloads id (some id) rest = [] := by
  refine List.eq_nil_iff_forall_not_mem.2 fun payload hpayload => ?_
  rcases exists_split_of_mem_payloads hpayload with ⟨middle, last, rfl, hmiddle⟩
  have hmodule : e.module? = none := by
    cases e with
    | setModule id => exact absurd rfl huse
    | _ => rfl
  have hsplit : front ++ e :: (middle ++ .table payload :: last)
      = (front ++ e :: middle) ++ .table payload :: last := by
    rw [List.append_assoc, List.cons_append]
  have hlater : active? (front ++ e :: middle) = some id := by
    rw [active?_append, active?_cons, hmodule, hactive, Option.or_none]
    exact hmiddle
  rw [hsplit] at h
  have hnone := h (front ++ e :: middle).length (by simp) front.length (by simp)
  rw [List.getElem?_append_right (Nat.le_refl _), Nat.sub_self, List.take_left, hlater] at hnone
  rw [List.append_assoc, List.take_left, List.getElem?_append_right (Nat.le_refl _),
    Nat.sub_self] at hnone
  exact huse (hnone ⟨rfl, rfl, hactive⟩)

/-- There is at most one payload of a module. -/
theorem TablesFirst.payloads_eq_singleton (h : TablesFirst events)
    (hpayload : payload ∈ payloads id none events) : payloads id none events = [payload] := by
  rcases exists_split_of_mem_payloads hpayload with ⟨front, rest, rfl, hactive⟩
  rw [Option.or_none] at hactive
  have huse : (Event.table payload).use? ≠ none := Option.some_ne_none _
  have hfront : payloads id none front = [] := by
    refine List.eq_nil_iff_forall_not_mem.2 fun earlier hearlier => ?_
    rcases exists_split_of_mem_payloads hearlier with ⟨before, after, rfl, hbefore⟩
    rw [Option.or_none] at hbefore
    rw [List.append_assoc, List.cons_append] at h
    -- the later payload comes after the table of the earlier one
    have hnone := h.payloads_eq_nil hbefore (Option.some_ne_none _)
    have htable : (Event.table earlier).module? = none := rfl
    rw [active?_append, active?_cons, htable, Option.or_none, hbefore] at hactive
    rw [payloads_append] at hnone
    have hlast := (List.append_eq_nil_iff.1 hnone).2
    rw [payloads, Event.payload?, if_pos hactive] at hlast
    cases hlast
  have hmodule : (Event.table payload).module? = none := rfl
  rw [payloads_append, hfront, Option.or_none, hactive, payloads, Event.payload?, if_pos rfl,
    hmodule, Option.none_or, h.payloads_eq_nil hactive huse]
  rfl

/-! ## Keeping count of the modules used -/

/-- Each table is the first of its module and comes before its calls, where the modules in `used`
had a table or a call before all events. -/
def Orderly (active : Option Nat) (used : List Nat) : List Event → Prop
  | [] => True
  | e :: rest =>
    (e.use? = some .table → ∀ m ∈ active, m ∉ used) ∧
      Orderly (e.module?.or active) (if e.use? = none then used else active.toList ++ used) rest

section Orderly

variable {used used' : List Nat} {j k m : Nat}

theorem Orderly.mono (h : Orderly active used events) (hused : used' ⊆ used) :
    Orderly active used' events := by
  induction events generalizing active used used' with
  | nil => trivial
  | cons e rest ih =>
    refine ⟨fun huse m hm hmem => h.1 huse m hm (hused hmem), ih h.2 ?_⟩
    by_cases huse : e.use? = none
    · rw [if_pos huse, if_pos huse]
      exact hused
    · rw [if_neg huse, if_neg huse]
      exact List.append_subset.2 ⟨List.subset_append_left _ _,
        List.Subset.trans hused (List.subset_append_right _ _)⟩

theorem Orderly.not_mem (h : Orderly active used events)
    (htable : events[k]?.bind Event.use? = some .table)
    (hm : (active? (events.take k)).or active = some m) : m ∉ used := by
  induction events generalizing active used k with
  | nil => cases htable
  | cons e rest ih =>
    cases k with
    | zero => exact h.1 htable m hm
    | succ k =>
      rw [List.take_succ_cons, active?_cons, Option.or_assoc] at hm
      have hrest := ih h.2 htable hm
      by_cases huse : e.use? = none
      · rwa [if_pos huse] at hrest
      · rw [if_neg huse] at hrest
        exact fun hmem => hrest (List.mem_append_right _ hmem)

theorem Orderly.use?_eq_none (h : Orderly active used events) (hjk : j < k)
    (htable : events[k]?.bind Event.use? = some .table)
    (hm : (active? (events.take k)).or active = some m)
    (hj : (active? (events.take j)).or active = some m) :
    events[j]?.bind Event.use? = none := by
  induction events generalizing active used j k with
  | nil => rfl
  | cons e rest ih =>
    obtain ⟨k, rfl⟩ := Nat.exists_eq_succ_of_ne_zero (Nat.ne_zero_of_lt hjk)
    rw [List.take_succ_cons, active?_cons, Option.or_assoc] at hm
    cases j with
    | zero =>
      -- had `e` used its module, the table would come too late
      by_contra huse
      have huse : e.use? ≠ none := huse
      have hactive : active = some m := hj
      have hnew := h.2.not_mem htable hm
      rw [if_neg huse, hactive] at hnew
      exact hnew List.mem_cons_self
    | succ j =>
      rw [List.take_succ_cons, active?_cons, Option.or_assoc] at hj
      exact ih h.2 (Nat.lt_of_succ_lt_succ hjk) htable hm hj

theorem Orderly.tablesFirst (h : Orderly none [] events) : TablesFirst events := by
  rintro k - j hjk ⟨htable, hsome, hactive⟩
  rcases Option.isSome_iff_exists.1 hsome with ⟨m, hm⟩
  refine h.use?_eq_none hjk htable (m := m) ?_ ?_
  · rw [hm, Option.some_or]
  · rw [hactive, hm, Option.some_or]

end Orderly

end Trace

/-! ## Recording one -/

namespace Outcome

variable {entered : List Nat} {rest : List Event}

/-- What a call that enters `m` writes uses `m` and no other module. -/
theorem orderly_enter {m f : Nat} {answers : List (Nat × Except Error Table)}
    (hrest : Trace.Orderly (some m) (entered ++ [m]) rest) :
    Trace.Orderly entered.getLast? entered
      ((⟨.enter m f, .ok (), answers⟩ : Outcome).events entered ++ rest) := by
  have hcall : ∀ used, used ⊆ entered ++ [m] → Trace.Orderly (some m) used (.call f :: rest) := by
    intro used hused
    refine ⟨fun htable => (by cases htable), hrest.mono ?_⟩
    exact List.append_subset.2 ⟨List.subset_append_right _ _, hused⟩
  have hentered : entered ⊆ entered ++ [m] := List.subset_append_left _ _
  simp only [events]
  by_cases hmem : m ∈ entered
  · rw [if_pos hmem]
    by_cases hlast : entered.getLast? = some m
    · rw [if_pos hlast, hlast]
      exact hcall entered hentered
    · rw [if_neg hlast]
      exact ⟨fun htable => (by cases htable), hcall entered hentered⟩
  · -- a module that was not entered before cannot be the active one
    have hlast : entered.getLast? ≠ some m := fun hlast => hmem (List.mem_of_getLast? hlast)
    rw [if_neg hmem, if_neg hlast]
    refine ⟨fun htable => (by cases htable), ?_⟩
    cases table? ⟨.enter m f, .ok (), answers⟩ with
    | none => exact hcall entered hentered
    | some table =>
      refine ⟨fun _ n hn => ?_, hcall _ ?_⟩
      · cases hn
        exact hmem
      · exact List.append_subset.2 ⟨List.subset_append_right _ _, hentered⟩

theorem orderly_events (o : Outcome)
    (hrest : Trace.Orderly (entered ++ o.entered?.toList).getLast? (entered ++ o.entered?.toList)
      rest) :
    Trace.Orderly entered.getLast? entered (o.events entered ++ rest) := by
  refine o.events_append ?_ ?_ ?_ hrest
  · rintro m f answers rfl hrest
    exact orderly_enter hrest
  · exact fun id hrest => ⟨fun htable => (by cases htable), hrest⟩
  · exact fun hrest => ⟨fun htable => (by cases htable), hrest⟩

end Outcome

/-- What the calls of a history stand for has every table in its place. -/
theorem History.orderly_eventsFrom (before : List Nat) (history : List Outcome) :
    Trace.Orderly before.getLast? before (eventsFrom before history) := by
  induction history generalizing before with
  | nil => trivial
  | cons o history ih => exact o.orderly_events (ih _)

theorem History.tablesFirst_events (history : List Outcome) : Trace.TablesFirst (events history) :=
  (orderly_eventsFrom [] history).tablesFirst

end Retrace
