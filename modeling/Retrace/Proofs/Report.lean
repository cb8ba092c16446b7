import Mathlib.Data.List.Enum
import Retrace.Command.Invocation
import Retrace.Report

/-!
# Report — which events are shown around the current one

The events within reach of the current one are shown, each with its number, as long as the window ends
below 2^64.  The end of a wider window is reckoned before it is cut to the events that there are, and
then nothing is shown.

* `Report.eventLines_eq` — the lines of events in a row are numbered in a row;
* `Report.zipIdx_slice` — the elements of a list with numbers in an interval are a slice of it;
* `Report.window?_eq` — when there is a window;
* `Report.context_within_reach` — the events around the current one, for every size of the window;
* `Report.context_lost` — a command line with which the current event is not shown.
-/

namespace Retrace.Report

variable {events : List Event} {current size : Nat}

/-! ## Lines -/

/-- The line of a numbered event, marked if the number is that of the current one. -/
def numberedLine (current : Nat) (x : Event × Nat) : String := event x.2 x.1 (x.2 = current)

theorem eventLines_eq (current first : Nat) (events : List Event) :
    eventLines current first events = (events.zipIdx first).map (numberedLine current) := by
  induction events generalizing first with
  | nil => rfl
  | cons e rest ih => rw [eventLines, ih, List.zipIdx_cons, List.map_cons, numberedLine]

/-- The mark is on the line of the current event and on no other. -/
theorem head?_numberedLine (current : Nat) (x : Event × Nat) :
    (numberedLine current x).toList.head? = some '►' ↔ x.2 = current := by
  by_cases h : x.2 = current
  · simp [numberedLine, event, toString, h]
  · simp [numberedLine, event, toString, h]

/-! ## Windows -/

/-- Of a list that is numbered from `k` on, the numbers from `first` to before `stop` are a slice. -/
theorem zipIdx_filter {α : Type} (l : List α) (k first stop : Nat) :
    (l.zipIdx k).filter (fun x => first ≤ x.2 ∧ x.2 < stop)
      = ((l.take (stop - k)).drop (first - k)).zipIdx (max first k) := by
  induction l generalizing k with
  | nil => simp
  | cons a rest ih =>
    rw [List.zipIdx_cons]
    by_cases hstop : stop ≤ k
    · -- the window is behind already
      have hnone : stop - k = 0 := by omega
      have hnone' : stop - (k + 1) = 0 := by omega
      have hout : ¬ (first ≤ k ∧ k < stop) := by omega
      rw [List.filter_cons_of_neg (by simpa using hout), ih, hnone, hnone']
      simp
    · have htake : stop - k = stop - (k + 1) + 1 := by omega
      rw [htake, List.take_succ_cons]
      by_cases hfirst : first ≤ k
      · have hin : first ≤ k ∧ k < stop := by omega
        have hdrop : first - k = 0 := by omega
        have hdrop' : first - (k + 1) = 0 := by omega
        rw [List.filter_cons_of_pos (by simpa using hin), ih, hdrop, hdrop', List.drop_zero,
          List.drop_zero, Nat.max_eq_right hfirst, Nat.max_eq_right (by omega), List.zipIdx_cons]
      · -- the window is still to come
        have hout : ¬ (first ≤ k ∧ k < stop) := by omega
        have hdrop : first - k = first - (k + 1) + 1 := by omega
        rw [List.filter_cons_of_neg (by simpa using hout), ih, hdrop, List.drop_succ_cons,
          Nat.max_eq_left (by omega), Nat.max_eq_left (by omega)]

theorem zipIdx_slice {α : Type} (l : List α) (first stop : Nat) :
    ((l.take stop).drop (min first stop)).zipIdx first
      = l.zipIdx.filter fun x => first ≤ x.2 ∧ x.2 < stop := by
  rw [zipIdx_filter, Nat.sub_zero, Nat.sub_zero, Nat.max_zero]
  by_cases h : first ≤ stop
  · rw [Nat.min_eq_left h]
  · -- both are empty where the window is reversed
    have hlength := List.length_take_le stop l
    rw [List.drop_eq_nil_of_le (by omega), List.drop_eq_nil_of_le (by omega)]

/-- The numbers in a list are below its length, so the end of the window need not be. -/
theorem filter_window (events : List Event) (first stop : Nat) :
    (events.zipIdx.filter fun x => first ≤ x.2 ∧ x.2 < min stop events.length)
      = events.zipIdx.filter fun x => first ≤ x.2 ∧ x.2 < stop := by
  refine List.filter_congr fun x hx => ?_
  have hlt : x.2 < events.length := List.snd_lt_of_mem_zipIdx hx
  simp only [Nat.lt_min, hlt, and_true]

/-- The window is there as long as the number behind its last one is a 64-bit number. -/
theorem window?_eq (count current size : Nat) :
    window? count current size
      = if current + size + 1 < 0x10000000000000000 then
          some (current - size, min (current + size + 1) count)
        else none := by
  by_cases hfits : current + size + 1 < 0x10000000000000000
  · have hlast : Width.word64.plus? current size = some (current + size) :=
      Width.plus?_eq (Nat.lt_of_succ_lt hfits)
    have hstop : Width.word64.plus? (current + size) 1 = some (current + size + 1) :=
      Width.plus?_eq hfits
    rw [if_pos hfits, window?, hlast, Option.bind_eq_bind, Option.bind_some, hstop]
    rfl
  · -- the first sum may still be small enough
    rw [if_neg hfits, window?, Option.bind_eq_bind, Option.bind_eq_none_iff]
    intro last hlast
    obtain ⟨-, rfl⟩ := Width.plus?_eq_some.1 hlast
    have hstop : Width.word64.plus? (current + size) 1 = none := Width.plus?_eq_none hfits
    rw [hstop]
    rfl

/-- With a window of `size` on either side, the events from `current - size` to `current + size` are
shown in order, each on a line with its number, and the mark is on that of the current event alone.
This holds as long as the number behind the last one is below 2^64.  From there on nothing is shown. -/
theorem context_within_reach (hcurrent : current < events.length) (size : Nat) :
    (current + size + 1 < 0x10000000000000000 →
        context? events current size = some (lines ("Instruction Context" ::
          (events.zipIdx.filter fun x => current - size ≤ x.2 ∧ x.2 ≤ current + size).map
            (numberedLine current)))) ∧
      (0x10000000000000000 ≤ current + size + 1 → context? events current size = none) ∧
      ∀ x : Event × Nat, (numberedLine current x).toList.head? = some '►' ↔ x.2 = current := by
  have hne : events ≠ [] := List.ne_nil_of_length_pos (by omega)
  refine ⟨?_, ?_, head?_numberedLine current⟩
  · intro hfits
    have hlines : eventLines current (current - size)
          ((events.take (min (current + size + 1) events.length)).drop
            (min (current - size) (min (current + size + 1) events.length)))
        = (events.zipIdx.filter fun x => current - size ≤ x.2 ∧ x.2 ≤ current + size).map
            (numberedLine current) := by
      rw [eventLines_eq, zipIdx_slice, filter_window]
      simp only [Nat.lt_succ_iff]
    rw [context?, if_neg hne, window?_eq, if_pos hfits, ← hlines]
    rfl
  · intro hwide
    rw [context?, if_neg hne, window?_eq, if_neg (Nat.not_lt.2 hwide)]
    rfl

/-- A trace of three events. -/
def threeEvents : List Event := [.setModule 0, .table [0x7B, 0x7D], .ret]

theorem context_within_reach_threeEvents :
    context? threeEvents 1 7 = some (lines ["Instruction Context", "       0: SetModuleId(0)",
        "►      1: SetModuleInfo (2 bytes)", "       2: ReturnFunction"]) ∧
      context? threeEvents 2 0xFFFFFFFFFFFFFFFF = none := by
  have hcurrent : 1 < threeEvents.length := by decide
  have hcurrent' : 2 < threeEvents.length := by decide
  obtain ⟨hfits, -, -⟩ := context_within_reach hcurrent 7
  obtain ⟨-, hwide, -⟩ := context_within_reach hcurrent' 0xFFFFFFFFFFFFFFFF
  rw [hfits (by decide)]
  exact ⟨by decide, hwide (by decide)⟩

/-- With the widest window that a command line can ask for, not even the only event of a trace is
shown. -/
theorem context_lost :
    (Invocation.ofWords ["stack", "t", "-i", "0", "-c", "18446744073709551615"]).map (·.command)
        = .ok (.stack "t" 0 0xFFFFFFFFFFFFFFFF false) ∧
      context? [.ret] 0 0xFFFFFFFFFFFFFFFF = none ∧
      context? [.ret] 0 0xFFFFFFFFFFFFFFFF
        ≠ some (lines ["Instruction Context", numberedLine 0 (.ret, 0)]) := by
  refine ⟨by decide, by decide, by decide⟩

end Retrace.Report
