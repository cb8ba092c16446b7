import Retrace.Proofs.Trace.Prefix

/-!
# Walker — the events of any bytes, one at a time

Asked again and again, a walker gives the events of a walk in their order, then what stops the walk,
and then nothing.

* `Walk.answers` — all that can be got out of a walk;
* `Walker.next_cases` — what asking once does, going by the walk that lies ahead;
* `Walker.after_eq` — what a walker answers after any number of requests, and where it stands;
* `Walker.partitions` — the events take up the bytes from the first one on without a gap, up to the
  end or to the one fault, and a cut leaves the events in front of it as they are.
-/

namespace Retrace

open Trace

/-- The events, and then what stops the walk. -/
def Walk.answers (w : Walk) : List (Except Error Event) :=
  w.steps.map (fun s => .ok s.event) ++ (w.error?.map .error).toList

namespace Walker

/-! ## Asking once, asking often -/

/-- The walk that lies ahead of a walker. -/
def ahead (w : Walker) : Walk :=
  if w.failed then ⟨[], none⟩ else walkFrom w.offset 0 (w.bytes.drop w.offset)

/-- The walk ahead is over, or it is stopped, or it has a step that the walker takes. -/
theorem next_cases (w : Walker) :
    (w.ahead = ⟨[], none⟩ ∧ w.next = (none, w)) ∨
      (∃ e, w.ahead = ⟨[], some e⟩ ∧ w.next = (some (.error e), { w with failed := true })) ∨
      ∃ s rest error?, w.ahead = ⟨s :: rest, error?⟩ ∧
        w.next = (some (.ok s.event), { w with offset := s.next }) ∧
        ({ w with offset := s.next } : Walker).ahead = ⟨rest, error?⟩ := by
  rcases w with ⟨bytes, offset, _ | _⟩
  · have hwalk := walkFrom_eq_decodeAt bytes offset
    cases hread : Event.decodeAt bytes offset with
    | error e =>
      simp only [hread] at hwalk
      exact .inr (.inl ⟨e, hwalk, by simp [next, hread]⟩)
    | ok result =>
      rcases result with _ | ⟨e, last⟩
      · simp only [hread] at hwalk
        exact .inl ⟨hwalk, by simp [next, hread]⟩
      · simp only [hread] at hwalk
        exact .inr (.inr ⟨_, _, _, hwalk, by simp [next, hread], rfl⟩)
  · exact .inl ⟨rfl, rfl⟩

/-- Request by request a walker works off the walk that lies ahead. -/
theorem after_eq (w : Walker) (n : Nat) :
    (w.after n).next.1 = w.ahead.answers[n]? ∧
      (w.after n).offset = endFrom w.offset (w.ahead.steps.take n) := by
  induction n generalizing w with
  | zero =>
    rw [after]
    rcases w.next_cases with
      ⟨hahead, hnext⟩ | ⟨e, hahead, hnext⟩ | ⟨s, rest, error?, hahead, hnext, -⟩
    all_goals rw [hahead, hnext]; exact ⟨rfl, rfl⟩
  | succ n ih =>
    rcases ih w.next.2 with ⟨hanswer, hoffset⟩
    rw [after, hanswer, hoffset]
    rcases w.next_cases with
      ⟨hahead, hnext⟩ | ⟨e, hahead, hnext⟩ | ⟨s, rest, error?, hahead, hnext, hrest⟩
    · rw [hnext, hahead, List.take_nil, List.take_nil]
      exact ⟨rfl, rfl⟩
    · have hover : ({ w with failed := true } : Walker).ahead = ⟨[], none⟩ := rfl
      rw [hnext, hahead, hover, List.take_nil, List.take_nil]
      exact ⟨rfl, rfl⟩
    · rw [hnext, hahead, hrest, List.take_succ_cons, endFrom_cons]
      exact ⟨rfl, rfl⟩

end Walker

/-! ## Any bytes -/

namespace Trace

variable {k : Nat}

theorem walks_walk (bytes : List UInt8) : Walks 0 bytes (walk bytes) := walks_walkFrom 0 bytes

theorem walk_stop (bytes : List UInt8) : (walk bytes).stop = endFrom 0 (walk bytes).steps := rfl

/-- A walk that is not stopped covers the bytes. -/
theorem walk_error?_eq_none (bytes : List UInt8) :
    (walk bytes).error? = none ↔ (walk bytes).stop = bytes.length := by
  rw [walk_stop]
  constructor
  · intro hall
    rw [(walks_walk bytes).endFrom_eq hall, Nat.zero_add]
  · intro hend
    cases hstop : (walk bytes).error? with
    | none => rfl
    | some error =>
      have hlt := ((walks_walk bytes).exists_fault hstop).1
      omega

/-- There are no more answers than bytes. -/
theorem length_answers_walk (bytes : List UInt8) :
    (walk bytes).answers.length ≤ bytes.length := by
  have hsteps := (walks_walk bytes).consecutive.length_le
  rw [Walk.answers, List.length_append, List.length_map]
  cases hstop : (walk bytes).error? with
  | none =>
    have hend := (walks_walk bytes).endFrom_eq hstop
    simp only [Option.map_none, Option.toList_none, List.length_nil]
    omega
  | some error =>
    have hlt := ((walks_walk bytes).exists_fault hstop).1
    simp only [Option.map_some, Option.toList_some, List.length_singleton]
    omega

/-- Where no step ends a trace is cut inside one. -/
theorem exists_cut_step {bytes : List UInt8} (hall : (walk bytes).error? = none)
    (hk : k < bytes.length) (hpos : k ≠ 0) (hends : ∀ s ∈ (walk bytes).steps, s.next ≠ k) :
    ∃ s ∈ (walk bytes).steps, s.offset < k ∧ k < s.next := by
  have hend := (walks_walk bytes).endFrom_eq hall
  rcases (walks_walk bytes).consecutive.exists_around (Nat.pos_of_ne_zero hpos)
    (by rwa [hend, Nat.zero_add]) with ⟨s, hs, hlow, hhigh⟩
  exact ⟨s, hs, hlow, Nat.lt_of_le_of_ne hhigh (hends s hs).symm⟩

end Trace

/-- Asked often enough, a walker gives the events at the front of any bytes, then what is wrong with
the one after them unless the bytes end there, and then nothing, while it stays where the events
end.  There are no more answers than bytes.  The events take up the bytes from the first one on, each
at least one and with no gap between them, and what is wrong is reported at the byte after them.

If a trace can be read to its end and is cut anywhere, then the events that end at or before the cut
are read as they were; an event that is cut is reported at its start as having too few bytes. -/
theorem Walker.partitions (bytes : List UInt8) :
    (∀ n, ((Walker.start bytes).after n).next.1 = (walk bytes).answers[n]? ∧
        ((Walker.start bytes).after n).offset = endFrom 0 ((walk bytes).steps.take n)) ∧
      (∀ n, (walk bytes).steps.length ≤ n →
        ((Walker.start bytes).after n).offset = (walk bytes).stop) ∧
      (walk bytes).answers.length ≤ bytes.length ∧
      Consecutive 0 (walk bytes).steps ∧
      ((walk bytes).error? = none ↔ (walk bytes).stop = bytes.length) ∧
      (∀ error, (walk bytes).error? = some error →
        ∃ fault, error = .malformedTrace (walk bytes).stop fault) ∧
      ∀ events, decode bytes = .ok events → ∀ k < bytes.length,
        ((k = 0 ∨ ∃ s ∈ (walk bytes).steps, s.next = k) →
          walk (bytes.take k) = ⟨(walk bytes).steps.filter (·.next ≤ k), none⟩) ∧
        (k ≠ 0 → (∀ s ∈ (walk bytes).steps, s.next ≠ k) →
          ∃ s ∈ (walk bytes).steps, s.offset < k ∧ k < s.next ∧
            ∃ needed remaining, remaining < needed ∧
              walk (bytes.take k) = ⟨(walk bytes).steps.filter (·.next ≤ k),
                some (.malformedTrace s.offset (.truncated needed remaining))⟩) := by
  have hafter := (Walker.start bytes).after_eq
  have hwalk := walks_walk bytes
  refine ⟨hafter, ?_, length_answers_walk bytes, hwalk.consecutive, walk_error?_eq_none bytes, ?_,
    ?_⟩
  · intro n hn
    rw [(hafter n).2]
    exact congrArg (endFrom 0) (List.take_of_length_le hn)
  · intro error hstop
    exact (hwalk.exists_fault hstop).2
  · intro events hdecode k hk
    have hzero : 0 + k = k := Nat.zero_add k
    constructor
    · intro hclean
      have hcut := hwalk.take_clean (k := k) (by rwa [hzero])
      rw [hzero] at hcut
      exact hcut.eq
    · intro hpos hends
      rcases exists_cut_step (decode_eq_ok hdecode).1 hk hpos hends with ⟨s, hs, hlow, hhigh⟩
      rcases hwalk.take_cut (k := k) hs (by rwa [hzero]) (by rwa [hzero]) with
        ⟨needed, remaining, hlt, hcut⟩
      rw [hzero] at hcut
      exact ⟨s, hs, hlow, hhigh, needed, remaining, hlt, hcut.eq⟩

/-- Module 1 has a table of two bytes, and its function 5 is called. -/
def shortTable : List UInt8 := [0x01, 0xC1, 0, 0, 0, 2, 0x7B, 0x7D, 0x45]

/-- The table is left whole, and it is cut inside its length; and in another trace a return is
followed by a call whose id has lost two of its three bytes. -/
theorem Walker.partitions_shortTable :
    decode shortTable = .ok [.setModule 1, .table [0x7B, 0x7D], .call 5] ∧
      walk (shortTable.take 8) = ⟨[⟨0, 1, .setModule 1⟩, ⟨1, 8, .table [0x7B, 0x7D]⟩], none⟩ ∧
      (∃ needed remaining, remaining < needed ∧
        walk (shortTable.take 5)
          = ⟨[⟨0, 1, .setModule 1⟩],
              some (.malformedTrace 1 (.truncated needed remaining))⟩) ∧
      (walk [0xC0, 0x7F, 1]).error? = some (.malformedTrace 1 (.truncated 3 1)) ∧
      ((Walker.start [0xC0, 0x7F, 1]).after 2).next.1 = none ∧
      ((Walker.start [0xC0, 0x7F, 1]).after 2).offset = 1 := by
  have hdecode : decode shortTable = .ok [.setModule 1, .table [0x7B, 0x7D], .call 5] := rfl
  have hsteps : (walk shortTable).steps
      = [⟨0, 1, .setModule 1⟩, ⟨1, 8, .table [0x7B, 0x7D]⟩, ⟨8, 9, .call 5⟩] := rfl
  have hstop : (walk [0xC0, 0x7F, 1]).error? = some (.malformedTrace 1 (.truncated 3 1)) := rfl
  rcases Walker.partitions shortTable with ⟨-, -, -, -, -, -, hcut⟩
  rcases Walker.partitions [0xC0, 0x7F, 1] with ⟨hanswers, hstays, -⟩
  refine ⟨hdecode, ?_, ?_, hstop, ?_, ?_⟩
  · have hclean := (hcut _ hdecode 8 (by decide)).1
    rw [hsteps] at hclean
    exact hclean (.inr ⟨⟨1, 8, .table [0x7B, 0x7D]⟩, by simp, rfl⟩)
  · have hinside := (hcut _ hdecode 5 (by decide)).2
    rw [hsteps] at hinside
    rcases hinside (by decide) (by decide) with ⟨s, hs, hlow, hhigh, needed, remaining, hlt, hwalk⟩
    simp only [List.mem_cons, List.not_mem_nil, or_false] at hs
    rcases hs with rfl | rfl | rfl
    · exact absurd hhigh (by decide)
    · exact ⟨needed, remaining, hlt, hwalk⟩
    · exact absurd hlow (by decide)
  · rw [(hanswers 2).1]
    rfl
  · exact hstays 2 (by decide)

end Retrace
