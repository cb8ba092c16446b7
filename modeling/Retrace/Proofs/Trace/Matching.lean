import Mathlib.Data.List.Infix
import Retrace.Replay.Machine

/-!
# Matching — the calls of a trace and the returns that match them

A return matches the last call before it that is still open, so a call stays open where no stretch
of the events after it has more returns than calls.

* `Trace.Balanced`, `Trace.Housed` — no return comes without a call, and no call or table before a
  module is set;
* `Trace.openCalls` — the calls that no return matches, each with the module set last before it and
  the block reached last at its own level;
* `Trace.leveledCalls_concat` — what one event more does to the open calls: it opens one, or it
  changes or ends the one inside which no other is open.
-/

namespace Retrace

namespace Event

def isCall : Event → Bool
  | call _ => true
  | _ => false

def function? : Event → Option Nat
  | call function => some function
  | _ => none

def block? : Event → Option Nat
  | block id => some id
  | _ => none

def module? : Event → Option Nat
  | setModule id => some id
  | _ => none

/-- What the event needs a module for. -/
def use? : Event → Option ModuleUse
  | table _ => some .table
  | call _ => some .call
  | _ => none

end Event

namespace Trace

/-! ## Calls and returns -/

def calls (events : List Event) : Nat := events.countP Event.isCall

def returns (events : List Event) : Nat := events.count .ret

/-- No prefix has more returns than calls. -/
def Balanced (events : List Event) : Prop :=
  ∀ front, front <+: events → returns front ≤ calls front

/-- As many calls as returns, and never more returns than calls on the way. -/
def Level (events : List Event) : Prop := Balanced events ∧ calls events = returns events

instance (events : List Event) : Decidable (Balanced events) :=
  decidable_of_iff (∀ front ∈ events.inits, returns front ≤ calls front)
    (by simp only [List.mem_inits, Balanced])

instance (events : List Event) : Decidable (Level events) :=
  inferInstanceAs (Decidable (_ ∧ _))

/-- The module that was set last. -/
def active? (events : List Event) : Option Nat := (events.filterMap Event.module?).getLast?

/-- No call and no table comes before a module is set. -/
def Housed (events : List Event) : Prop :=
  ∀ k < events.length,
    (events[k]?.bind Event.use?).isSome → (active? (events.take k)).isSome

instance (events : List Event) : Decidable (Housed events) :=
  inferInstanceAs (Decidable (∀ k < events.length, _ → _))

/-! ## Open calls -/

/-- The block reached last at the level of a call, among the events after it. -/
def ownBlock? (after : List Event) : Option Nat :=
  ((List.range after.length).filterMap fun j =>
    if Level (after.take j) then after[j]?.bind Event.block? else none).getLast?

/-- A call, if none of the events after it returns from it. -/
def frame? (module function : Nat) (after : List Event) : Option Frame :=
  if Balanced after then some ⟨module, function, ownBlock? after⟩ else none

/-- The call at place `k`, if it is one and if it stays open. -/
def openCall? (events : List Event) (k : Nat) : Option Frame := do
  let function ← events[k]?.bind Event.function?
  let module ← active? (events.take k)
  frame? module function (events.drop (k + 1))

/-- The calls that stay open, in their order. -/
def openCalls (events : List Event) : List Frame :=
  (List.range events.length).filterMap (openCall? events)

/-! ## One event more -/

section Concat

variable {events : List Event} {e : Event}

theorem calls_append (events events' : List Event) :
    calls (events ++ events') = calls events + calls events' := List.countP_append

theorem returns_append (events events' : List Event) :
    returns (events ++ events') = returns events + returns events' := List.count_append

theorem Balanced.le (h : Balanced events) : returns events ≤ calls events := h _ List.prefix_rfl

theorem balanced_nil : Balanced [] := by
  intro front hfront
  rw [List.prefix_nil.1 hfront]
  exact Nat.le_refl 0

theorem balanced_concat :
    Balanced (events ++ [e]) ↔
      Balanced events ∧ returns (events ++ [e]) ≤ calls (events ++ [e]) := by
  constructor
  · intro h
    exact ⟨fun front hfront => h front (hfront.trans (List.prefix_append _ _)), h.le⟩
  · rintro ⟨h, hall⟩ front hfront
    rcases List.prefix_concat_iff.1 hfront with rfl | hfront
    · exact hall
    · exact h front hfront

theorem active?_concat (events : List Event) (e : Event) :
    active? (events ++ [e]) = e.module?.or (active? events) := by
  rw [active?, List.filterMap_append, List.getLast?_append]
  cases e <;> rfl

theorem active?_concat_other (events : List Event) (h : e.module? = none) :
    active? (events ++ [e]) = active? events := by
  rw [active?_concat, h, Option.none_or]

theorem housed_concat :
    Housed (events ++ [e]) ↔
      Housed events ∧ (e.use?.isSome → (active? events).isSome) := by
  unfold Housed
  rw [List.length_append, List.length_singleton, Nat.forall_lt_succ_right,
    List.getElem?_concat_length, Option.bind_some, List.take_left]
  refine and_congr_left fun _ => forall₂_congr fun k hk => ?_
  rw [List.getElem?_append_left hk, List.take_append_of_le_length (Nat.le_of_lt hk)]

/-- The event at the end counts only at the level of the call. -/
theorem ownBlock?_concat (after : List Event) (e : Event) :
    ownBlock? (after ++ [e])
      = if Level after then e.block?.or (ownBlock? after) else ownBlock? after := by
  have hbefore : ∀ j ∈ List.range after.length,
      (if Level ((after ++ [e]).take j) then (after ++ [e])[j]?.bind Event.block? else none)
        = if Level (after.take j) then after[j]?.bind Event.block? else none := by
    intro j hj
    have hlt : j < after.length := List.mem_range.1 hj
    rw [List.take_append_of_le_length (Nat.le_of_lt hlt), List.getElem?_append_left hlt]
  have hlast : (after ++ [e]).take after.length = after := List.take_left
  rw [ownBlock?, List.length_append, List.length_singleton, List.range_succ,
    List.filterMap_append, List.filterMap_congr hbefore, List.getLast?_append, ← ownBlock?,
    List.filterMap_cons, List.filterMap_nil, hlast, List.getElem?_concat_length, Option.bind_some]
  by_cases hlevel : Level after
  · rw [if_pos hlevel, if_pos hlevel]
    cases e.block? <;> rfl
  · rw [if_neg hlevel, if_neg hlevel]
    rfl

theorem ownBlock?_concat_other (after : List Event) (h : e.block? = none) :
    ownBlock? (after ++ [e]) = ownBlock? after := by
  rw [ownBlock?_concat, h, Option.none_or, ite_self]

end Concat

/-! ## Open calls with their levels -/

end Trace

/-- What an event does to an open call and the number of calls that are open inside it. -/
def Event.shift : Event → Frame × Nat → Option (Frame × Nat)
  | .setModule _, entry => some entry
  | .table _, entry => some entry
  | .call _, (f, n) => some (f, n + 1)
  | .block id, (f, 0) => some ({ f with block := some id }, 0)
  | .block _, (f, n + 1) => some (f, n + 1)
  | .ret, (_, 0) => none
  | .ret, (f, n + 1) => some (f, n)

namespace Trace

/-- How many calls are open inside an open call, given the events after it. -/
def level (after : List Event) : Nat := calls after - returns after

theorem level_concat (after : List Event) (e : Event) :
    level (after ++ [e]) = calls after + calls [e] - (returns after + returns [e]) := by
  rw [level, calls_append, returns_append]

theorem level_eq_zero {after : List Event} (h : Balanced after) :
    level after = 0 ↔ Level after := by
  constructor
  · intro hzero
    exact ⟨h, Nat.le_antisymm (Nat.sub_eq_zero_iff_le.1 hzero) h.le⟩
  · intro hlevel
    exact Nat.sub_eq_zero_of_le hlevel.2.le

/-- What an event does to a call that is open before it, and to the number of calls inside. -/
theorem frame?_concat (module function : Nat) (after : List Event) (e : Event) :
    (frame? module function (after ++ [e])).map (·, level (after ++ [e]))
      = ((frame? module function after).map (·, level after)).bind e.shift := by
  rw [frame?, frame?, level_concat]
  by_cases hbal : Balanced after
  · have hle : returns after ≤ calls after := hbal.le
    have hiff : Balanced (after ++ [e])
        ↔ returns after + returns [e] ≤ calls after + calls [e] := by
      rw [balanced_concat, calls_append, returns_append]
      exact and_iff_right hbal
    rw [if_pos hbal, Option.map_some, Option.bind_some]
    cases e with
    | setModule id =>
      rw [if_pos (hiff.2 hle), ownBlock?_concat_other after rfl]
      rfl
    | table payload =>
      rw [if_pos (hiff.2 hle), ownBlock?_concat_other after rfl]
      rfl
    | call f =>
      have hmore : calls after + 1 - returns after = level after + 1 := Nat.succ_sub hle
      rw [if_pos (hiff.2 (Nat.le_succ_of_le hle)), ownBlock?_concat_other after rfl]
      exact congrArg (fun n => some (_, n)) hmore
    | block id =>
      rw [if_pos (hiff.2 hle), ownBlock?_concat]
      -- the block belongs to the call unless another one is open inside
      cases hn : level after with
      | zero =>
        rw [if_pos ((level_eq_zero hbal).1 hn)]
        exact congrArg (fun n => some (_, n)) hn
      | succ n =>
        have hopen : ¬ Level after := by
          rw [← level_eq_zero hbal, hn]
          exact Nat.succ_ne_zero n
        rw [if_neg hopen]
        exact congrArg (fun n => some (_, n)) hn
    | ret =>
      -- the return takes the call away unless another one is open inside
      cases hn : level after with
      | zero =>
        have hover : ¬ returns after + 1 ≤ calls after :=
          Nat.not_lt.2 (Nat.sub_eq_zero_iff_le.1 hn)
        rw [if_neg fun h => hover (hiff.1 h)]
        rfl
      | succ n =>
        have hfew : returns after + 1 ≤ calls after := by
          unfold level at hn
          omega
        have hless : calls after - (returns after + 1) = n := by
          unfold level at hn
          omega
        rw [if_pos (hiff.2 hfew), ownBlock?_concat_other after rfl]
        exact congrArg (fun n => some (_, n)) hless
  · have hbal' : ¬ Balanced (after ++ [e]) := fun h => hbal (balanced_concat.1 h).1
    rw [if_neg hbal, if_neg hbal']
    rfl

/-- The calls that stay open, each with the number of calls that are open inside it. -/
def leveledCalls (events : List Event) : List (Frame × Nat) :=
  (List.range events.length).filterMap fun k =>
    (openCall? events k).map (·, level (events.drop (k + 1)))

theorem map_fst_leveledCalls (events : List Event) :
    (leveledCalls events).map Prod.fst = openCalls events := by
  rw [leveledCalls, openCalls, List.map_filterMap]
  refine List.filterMap_congr fun k _ => ?_
  rw [Option.map_map]
  exact Option.map_id'

theorem openCall?_concat {events : List Event} {k : Nat} (hk : k < events.length) (e : Event) :
    (openCall? (events ++ [e]) k).map (·, level ((events ++ [e]).drop (k + 1)))
      = ((openCall? events k).map (·, level (events.drop (k + 1)))).bind e.shift := by
  rw [openCall?, openCall?, List.getElem?_append_left hk,
    List.take_append_of_le_length (Nat.le_of_lt hk), List.drop_append_of_le_length hk]
  cases events[k]?.bind Event.function? with
  | none => rfl
  | some function =>
    cases active? (events.take k) with
    | none => rfl
    | some module => exact frame?_concat module function (events.drop (k + 1)) e

/-- The call that an event opens, given the events before it. -/
def opened? (before : List Event) (e : Event) : Option Frame := do
  let function ← e.function?
  let module ← active? before
  some ⟨module, function, none⟩

/-- A call at the end stays open. -/
theorem openCall?_length (events : List Event) (e : Event) :
    openCall? (events ++ [e]) events.length = opened? events e := by
  have hafter : (events ++ [e]).drop (events.length + 1) = [] :=
    List.drop_of_length_le (by rw [List.length_append, List.length_singleton])
  rw [openCall?, opened?, List.getElem?_concat_length, Option.bind_some, List.take_left, hafter]
  cases e.function? with
  | none => rfl
  | some function =>
    cases active? events with
    | none => rfl
    | some module =>
      have hopen : frame? module function [] = some ⟨module, function, none⟩ := if_pos balanced_nil
      exact hopen

theorem leveledCalls_concat (events : List Event) (e : Event) :
    leveledCalls (events ++ [e])
      = (leveledCalls events).filterMap e.shift ++ ((opened? events e).map (·, 0)).toList := by
  have hlast : level ((events ++ [e]).drop (events.length + 1)) = 0 := by
    rw [List.drop_of_length_le (by rw [List.length_append, List.length_singleton])]
    rfl
  rw [leveledCalls, List.length_append, List.length_singleton, List.range_succ,
    List.filterMap_append, leveledCalls, List.filterMap_filterMap]
  refine congrArg₂ (· ++ ·) (List.filterMap_congr fun k hk => ?_) ?_
  · exact openCall?_concat (List.mem_range.1 hk) e
  · rw [List.filterMap_cons, List.filterMap_nil, openCall?_length, hlast]
    cases opened? events e <;> rfl

/-! ## Levels from the innermost call on -/

theorem filterMap_shift_quiet {e : Event} (h : ∀ entry, e.shift entry = some entry)
    (entries : List (Frame × Nat)) : entries.filterMap e.shift = entries := by
  rw [funext h]
  exact List.filterMap_some

theorem filterMap_shift_call (function : Nat) (frames : List Frame) (n : Nat) :
    (frames.zipIdx n).filterMap (Event.call function).shift = frames.zipIdx (n + 1) := by
  induction frames generalizing n with
  | nil => rfl
  | cons f rest ih =>
    rw [List.zipIdx_cons, List.zipIdx_cons, ← ih (n + 1)]
    rfl

theorem filterMap_shift_ret (frames : List Frame) (n : Nat) :
    (frames.zipIdx (n + 1)).filterMap Event.ret.shift = frames.zipIdx n := by
  induction frames generalizing n with
  | nil => rfl
  | cons f rest ih =>
    rw [List.zipIdx_cons, List.zipIdx_cons, ← ih (n + 1)]
    rfl

theorem filterMap_shift_block (id : Nat) (frames : List Frame) (n : Nat) :
    (frames.zipIdx (n + 1)).filterMap (Event.block id).shift = frames.zipIdx (n + 1) := by
  induction frames generalizing n with
  | nil => rfl
  | cons f rest ih =>
    rw [List.zipIdx_cons, List.filterMap_cons, ih (n + 1)]
    rfl

end Trace

end Retrace
