import Retrace.Proofs.Trace.Wire
import Retrace.Trace.Recorder

/-!
# Recorder — what a single call does

`Recorder.Records ask r c out` lists every way in which a recorder `r` can take the call `c`: what
it answers, what it writes and what it keeps in mind.  All that is said about whole runs comes from
these cases.

* `Recorder.record_records` — recording a call is one of them;
* `Recorder.bytes_record` — a call only ever appends;
-/

namespace Retrace

namespace Recorder

variable {σ : Type}

/-! ## One call -/

/-- The ways to record a call. -/
inductive Records (ask : Supplier σ) (r : Recorder σ) :
    Call → Except Error Unit × Recorder σ → Prop where
  | ret : Records ask r .ret (.ok (), { r with bytes := r.bytes ++ Event.ret.bytes })
  | block {id : Nat} (hid : id ≤ Event.maxOperand) :
      Records ask r (.block id) (.ok (), { r with bytes := r.bytes ++ (Event.block id).bytes })
  | largeBlock {id : Nat} (hid : Event.maxOperand < id) :
      Records ask r (.block id) (.error (.valueTooLarge id), r)
  | largeFunction {m f : Nat} (hf : Event.maxOperand < f) :
      Records ask r (.enter m f) (.error (.valueTooLarge f), r)
  | stay {m f : Nat} (hf : f ≤ Event.maxOperand) (hactive : r.active = some m) :
      Records ask r (.enter m f) (.ok (), { r with bytes := r.bytes ++ (Event.call f).bytes })
  | largeModule {m f : Nat} (hf : f ≤ Event.maxOperand) (hactive : r.active ≠ some m)
      (hm : Event.maxOperand < m) :
      Records ask r (.enter m f) (.error (.valueTooLarge m), r)
  | back {m f : Nat} (hf : f ≤ Event.maxOperand) (hactive : r.active ≠ some m)
      (hm : m ≤ Event.maxOperand) (hknown : m ∈ r.known) :
      Records ask r (.enter m f)
        (.ok (), ⟨r.supply, r.bytes ++ (Event.setModule m).bytes ++ (Event.call f).bytes, some m,
          r.known⟩)
  | refused {m f : Nat} {e : Error} {supply : σ} (hf : f ≤ Event.maxOperand)
      (hactive : r.active ≠ some m) (hm : m ≤ Event.maxOperand) (hknown : m ∉ r.known)
      (hask : ask r.supply m = (.error e, supply)) :
      Records ask r (.enter m f) (.error e, { r with supply := supply })
  | largeTable {m f : Nat} {table : Table} {supply : σ} (hf : f ≤ Event.maxOperand)
      (hactive : r.active ≠ some m) (hm : m ≤ Event.maxOperand) (hknown : m ∉ r.known)
      (hask : ask r.supply m = (.ok table, supply))
      (hlarge : ¬ table.toBytes.length < 0x100000000) :
      Records ask r (.enter m f)
        (.error (.valueTooLarge table.toBytes.length),
          ⟨supply, r.bytes ++ (Event.setModule m).bytes, some m, r.known⟩)
  | first {m f : Nat} {table : Table} {supply : σ} (hf : f ≤ Event.maxOperand)
      (hactive : r.active ≠ some m) (hm : m ≤ Event.maxOperand) (hknown : m ∉ r.known)
      (hask : ask r.supply m = (.ok table, supply)) (hsmall : table.toBytes.length < 0x100000000) :
      Records ask r (.enter m f)
        (.ok (), ⟨supply,
          r.bytes ++ (Event.setModule m).bytes ++ (Event.table table.toBytes).bytes
            ++ (Event.call f).bytes, some m, m :: r.known⟩)

theorem write_eq {e : Event} (h : e.Fits) (r : Recorder σ) :
    r.write e = (.ok (), { r with bytes := r.bytes ++ e.bytes }) := by
  rw [write, Event.encode_eq h]

theorem write_block_error {id : Nat} (h : Event.maxOperand < id) (r : Recorder σ) :
    r.write (.block id) = (.error (.valueTooLarge id), r) := by
  rw [write, Event.encode, Event.checkOperand_error h]
  rfl

theorem write_table_error {payload : List UInt8} (h : ¬ payload.length < 0x100000000)
    (r : Recorder σ) :
    r.write (.table payload) = (.error (.valueTooLarge payload.length), r) := by
  rw [write, Event.encode, if_neg h]

theorem switchTo_none {m : Nat} (hm : m ≤ Event.maxOperand) (r : Recorder σ) :
    r.switchTo m none
      = (.ok (), { r with bytes := r.bytes ++ (Event.setModule m).bytes, active := some m }) := by
  have hfits : (Event.setModule m).Fits := hm
  rw [switchTo, write_eq hfits]

theorem switchTo_some {m : Nat} (hm : m ≤ Event.maxOperand) {payload : List UInt8}
    (hsmall : payload.length < 0x100000000) (r : Recorder σ) :
    r.switchTo m (some payload)
      = (.ok (), ⟨r.supply, r.bytes ++ (Event.setModule m).bytes ++ (Event.table payload).bytes,
          some m, m :: r.known⟩) := by
  have hfits : (Event.setModule m).Fits := hm
  have htable : (Event.table payload).Fits := hsmall
  simp only [switchTo, write_eq hfits, write_eq htable]

theorem switchTo_error {m : Nat} (hm : m ≤ Event.maxOperand) {payload : List UInt8}
    (hlarge : ¬ payload.length < 0x100000000) (r : Recorder σ) :
    r.switchTo m (some payload)
      = (.error (.valueTooLarge payload.length),
          { r with bytes := r.bytes ++ (Event.setModule m).bytes, active := some m }) := by
  have hfits : (Event.setModule m).Fits := hm
  simp only [switchTo, write_eq hfits, write_table_error hlarge]

/-- A call is recorded in one of these ways only. -/
theorem Records.eq {ask : Supplier σ} {r : Recorder σ} {c : Call}
    {out : Except Error Unit × Recorder σ} (h : Records ask r c out) : r.record ask c = out := by
  have hcall : ∀ {f}, f ≤ Event.maxOperand → (Event.call f).Fits := fun h => h
  cases h with
  | ret => rw [record, Recorder.ret, write_eq (e := .ret) trivial]
  | @block id hid => rw [record, Recorder.block, write_eq (e := .block id) hid]
  | largeBlock hid => rw [record, Recorder.block, write_block_error hid]
  | largeFunction hf => simp only [record, enter, Event.checkOperand_error hf]
  | stay hf hactive =>
    simp only [record, enter, Event.checkOperand_ok hf, activate, if_pos hactive,
      write_eq (hcall hf)]
  | largeModule hf hactive hm =>
    simp only [record, enter, Event.checkOperand_ok hf, activate, if_neg hactive,
      Event.checkOperand_error hm]
  | back hf hactive hm hknown =>
    simp only [record, enter, Event.checkOperand_ok hf, activate, if_neg hactive,
      Event.checkOperand_ok hm, if_pos hknown, switchTo_none hm, write_eq (hcall hf)]
  | refused hf hactive hm hknown hask =>
    simp only [record, enter, Event.checkOperand_ok hf, activate, if_neg hactive,
      Event.checkOperand_ok hm, if_neg hknown, hask]
  | largeTable hf hactive hm hknown hask hlarge =>
    simp only [record, enter, Event.checkOperand_ok hf, activate, if_neg hactive,
      Event.checkOperand_ok hm, if_neg hknown, hask, switchTo_error hm hlarge]
  | first hf hactive hm hknown hask hsmall =>
    simp only [record, enter, Event.checkOperand_ok hf, activate, if_neg hactive,
      Event.checkOperand_ok hm, if_neg hknown, hask, switchTo_some hm hsmall, write_eq (hcall hf)]

theorem exists_records (ask : Supplier σ) (r : Recorder σ) (c : Call) :
    ∃ out, Records ask r c out := by
  cases c with
  | ret => exact ⟨_, .ret⟩
  | block id =>
    by_cases hid : Event.maxOperand < id
    · exact ⟨_, .largeBlock hid⟩
    · exact ⟨_, .block (Nat.not_lt.1 hid)⟩
  | enter m f =>
    -- in the order of the checks: the function, the module if it changes, its table if it is new
    by_cases hf : Event.maxOperand < f
    · exact ⟨_, .largeFunction hf⟩
    · have hf : f ≤ Event.maxOperand := Nat.not_lt.1 hf
      by_cases hactive : r.active = some m
      · exact ⟨_, .stay hf hactive⟩
      · by_cases hm : Event.maxOperand < m
        · exact ⟨_, .largeModule hf hactive hm⟩
        · have hm : m ≤ Event.maxOperand := Nat.not_lt.1 hm
          by_cases hknown : m ∈ r.known
          · exact ⟨_, .back hf hactive hm hknown⟩
          · rcases hask : ask r.supply m with ⟨answer, supply⟩
            cases answer with
            | error e => exact ⟨_, .refused hf hactive hm hknown hask⟩
            | ok table =>
              by_cases hsmall : table.toBytes.length < 0x100000000
              · exact ⟨_, .first hf hactive hm hknown hask hsmall⟩
              · exact ⟨_, .largeTable hf hactive hm hknown hask hsmall⟩

/-- And it is recorded in one of them. -/
theorem record_records (ask : Supplier σ) (r : Recorder σ) (c : Call) :
    Records ask r c (r.record ask c) := by
  rcases exists_records ask r c with ⟨out, h⟩
  rw [h.eq]
  exact h

/-- What is written stays. -/
theorem bytes_record (ask : Supplier σ) (r : Recorder σ) (c : Call) :
    r.bytes <+: (r.record ask c).2.bytes := by
  have h := record_records ask r c
  generalize r.record ask c = out at h
  cases h with
  | largeBlock | largeFunction | largeModule | refused => exact List.prefix_refl _
  | _ => simp [List.append_assoc, List.prefix_append]

end Recorder

end Retrace
