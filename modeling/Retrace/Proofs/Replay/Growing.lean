import Retrace.Proofs.Replay.Machine
import Retrace.Proofs.Trace.History
import Retrace.Proofs.Trace.Prefix

/-!
# Growing — questions to a trace that is still being written

* `Recorder.bytes_run` — a recorder only ever appends;
* `Recording.replay_append` — what is replayed for an event that can be read is settled by the bytes
  up to there;
* `Recording.answers_stand` — so an answer about such an event stands, whatever comes after it.
-/

namespace Retrace

/-- What is written stays, whatever is recorded after it. -/
theorem Recorder.bytes_run {σ : Type} (ask : Supplier σ) (r : Recorder σ) (calls : List Call) :
    r.bytes <+: (r.run ask calls).bytes := by
  induction calls generalizing r with
  | nil => exact List.prefix_refl r.bytes
  | cons c rest ih => exact (r.bytes_record ask c).trans (ih (r.record ask c).2)

namespace Recording

variable {bytes : List UInt8} {i : Nat}

/-- Events that can be read are replayed alike when the trace goes on. -/
theorem replay_append (hi : i < (Trace.walk bytes).steps.length) (more : List UInt8) :
    (ofBytes (bytes ++ more)).replay i = (ofBytes bytes).replay i := by
  rcases Trace.steps_walk_append bytes more with ⟨later, hsteps⟩
  have hlater : i < (Trace.walk (bytes ++ more)).steps.length := by
    rw [← hsteps, List.length_append]
    omega
  have htake : (Trace.walk (bytes ++ more)).steps.take (i + 1)
      = (Trace.walk bytes).steps.take (i + 1) := by
    rw [← hsteps, List.take_append_of_le_length hi]
  simp only [replay_eq, htake, if_pos hi, if_pos hlater]

/-- An event that can be read is answered for alike when the trace goes on. -/
theorem stackAt_append (hi : i < (Trace.walk bytes).steps.length) (more : List UInt8) :
    (ofBytes (bytes ++ more)).stackAt i = (ofBytes bytes).stackAt i ∧
      (ofBytes (bytes ++ more)).resolvedStackAt i = (ofBytes bytes).resolvedStackAt i := by
  constructor
  · rw [stackAt, stackAt, replay_append hi]
  · rw [resolvedStackAt, resolvedStackAt, replay_append hi]

/-- Whatever is appended to a trace, be it the start of an event or no event at all, the questions
about an event that can be read without it are answered as before, with a stack or with an error.
And nothing that a recorder has written is ever changed, neither by calls that it records nor by
calls that fail, so the answers to questions asked meanwhile stand. -/
theorem answers_stand :
    (∀ (bytes more : List UInt8) (i : Nat), i < (Trace.walk bytes).steps.length →
        (ofBytes (bytes ++ more)).stackAt i = (ofBytes bytes).stackAt i ∧
          (ofBytes (bytes ++ more)).resolvedStackAt i = (ofBytes bytes).resolvedStackAt i) ∧
      ∀ (σ : Type) (ask : Supplier σ) (r : Recorder σ) (calls : List Call),
        r.bytes <+: (r.run ask calls).bytes ∧
          ∀ i < (Trace.walk r.bytes).steps.length,
            (ofBytes (r.run ask calls).bytes).stackAt i = (ofBytes r.bytes).stackAt i ∧
              (ofBytes (r.run ask calls).bytes).resolvedStackAt i
                = (ofBytes r.bytes).resolvedStackAt i := by
  refine ⟨fun bytes more i hi => stackAt_append hi more, ?_⟩
  intro σ ask r calls
  have hgrows := r.bytes_run ask calls
  refine ⟨hgrows, ?_⟩
  intro i hi
  rcases hgrows with ⟨more, hmore⟩
  rw [← hmore]
  exact stackAt_append hi more

/-- Function 5 of module 1 returns twice, and then a table is begun; and a recorder in whose trace
function 1 of module 2 is open goes on with a call that fails and one that it records. -/
theorem answers_stand_overreturned :
    (ofBytes ([0x01, 0x45, 0xC0, 0xC0] ++ [0xC1, 0, 0])).stackAt 1 = .ok ⟨[⟨1, 5, none⟩]⟩ ∧
      (ofBytes ([0x01, 0x45, 0xC0, 0xC0] ++ [0xC1, 0, 0])).resolvedStackAt 3
        = .error (.unbalancedReturn 3) ∧
      ((⟨false, [0x02, 0x41], some 2, [2]⟩ : Recorder Bool).run Recorder.failsOnce
        [.enter 7 0, .block 4]).bytes = [0x02, 0x41, 0x84] ∧
      (ofBytes ((⟨false, [0x02, 0x41], some 2, [2]⟩ : Recorder Bool).run Recorder.failsOnce
        [.enter 7 0, .block 4]).bytes).stackAt 1 = .ok ⟨[⟨2, 1, none⟩]⟩ := by
  have hopen : (ofBytes [0x01, 0x45, 0xC0, 0xC0]).stackAt 1 = .ok ⟨[⟨1, 5, none⟩]⟩ := rfl
  have hover : (ofBytes [0x01, 0x45, 0xC0, 0xC0]).resolvedStackAt 3
      = .error (.unbalancedReturn 3) := rfl
  have hrecorded : (ofBytes [0x02, 0x41]).stackAt 1 = .ok ⟨[⟨2, 1, none⟩]⟩ := rfl
  rcases answers_stand with ⟨hbytes, hrecorder⟩
  rcases hrecorder Bool Recorder.failsOnce ⟨false, [0x02, 0x41], some 2, [2]⟩
    [.enter 7 0, .block 4] with ⟨-, hstands⟩
  refine ⟨?_, ?_, rfl, ?_⟩
  · rw [(hbytes _ [0xC1, 0, 0] 1 (by decide)).1, hopen]
  · rw [(hbytes _ [0xC1, 0, 0] 3 (by decide)).2, hover]
  · rw [(hstands 1 (by decide)).1, hrecorded]

end Recording

end Retrace
