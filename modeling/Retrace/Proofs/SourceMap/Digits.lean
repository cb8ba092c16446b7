import Mathlib.Algebra.BigOperators.Ring.List
import Mathlib.Data.Nat.Bitwise
import Retrace.Proofs.SourceMap.Vlq

/-!
# Digits — the number that is read, and what its digits amount to

* `Vlq.Run`, `Vlq.amount` — the digits of one number, and their exact sum;
* `Vlq.readFrom_run` — the sum is what is read, cut to a word;
* `Vlq.decodeFrom_eq` — shifting the digits into a word in place comes to the same;
* `Vlq.decodeAt_digits` — so a number is read exactly, unless its thirteenth digit does not fit;
* `Vlq.decodeAt_encode` — and a number that fits is written in the fewest digits from which it can
  be read, wherever they stand.
-/

namespace Retrace

namespace Vlq

open Base64 (digitChar digit? digit?_digitChar)

variable {own own' bytes rest rest' : List UInt8} {ds ds' : List Nat} {i folded n : Nat} {v : Int}

/-! ## Runs of digits -/

/-- Bytes that are the digits `ds` of one number: each but the last says that another follows. -/
inductive Run : List UInt8 → List Nat → Prop
  | last {b : UInt8} {d : Nat} (hdigit : digit? b = some d) (hlast : d < 32) : Run [b] [d]
  | more {b : UInt8} {d : Nat} {own : List UInt8} {ds : List Nat} (hdigit : digit? b = some d)
      (hmore : 32 ≤ d) (hrest : Run own ds) : Run (b :: own) (d :: ds)

/-- The exact sum of the low five bits of digits, each counted at its place. -/
def amount (ds : List Nat) : Nat := (ds.mapIdx fun j d => d % 32 * place j).sum

theorem Run.length_eq (h : Run own ds) : own.length = ds.length := by
  induction h with
  | last => rfl
  | more hdigit hmore hrest ih => rw [List.length_cons, List.length_cons, ih]

theorem Run.length_pos (h : Run own ds) : 0 < ds.length := by
  cases h with
  | last => exact Nat.succ_pos _
  | more => exact Nat.succ_pos _

/-- Where a run of digits starts it is settled where it ends. -/
theorem Run.unique (h : Run own ds) (h' : Run own' ds') (heq : own ++ rest = own' ++ rest') :
    ds = ds' := by
  induction h generalizing own' ds' with
  | last hdigit hlast =>
    cases h' with
    | last hdigit' hlast' =>
      cases heq
      rw [hdigit] at hdigit'
      cases hdigit'
      rfl
    | more hdigit' hmore' hrest' =>
      cases heq
      rw [hdigit] at hdigit'
      cases hdigit'
      omega
  | more hdigit hmore hrest ih =>
    cases h' with
    | last hdigit' hlast' =>
      cases heq
      rw [hdigit] at hdigit'
      cases hdigit'
      omega
    | more hdigit' hmore' hrest' =>
      rw [List.cons_append, List.cons_append, List.cons.injEq] at heq
      rcases heq with ⟨rfl, heq⟩
      rw [hdigit] at hdigit'
      cases hdigit'
      rw [ih hrest' heq]

theorem place_pos (j : Nat) : 0 < place j := Nat.pow_pos (by decide)

theorem place_le_place {j k : Nat} (h : j ≤ k) : place j ≤ place k :=
  Nat.pow_le_pow_right (by decide) h

theorem amount_cons (d : Nat) (ds : List Nat) : amount (d :: ds) = d % 32 + 32 * amount ds := by
  -- every digit but the first stands one place further on
  have hshift : (ds.mapIdx fun j d => d % 32 * place (j + 1))
      = (ds.mapIdx fun j d => d % 32 * place j).map (32 * ·) := by
    refine List.mapIdx_eq_iff.2 fun j => ?_
    rw [List.getElem?_map, List.getElem?_mapIdx, Option.map_map]
    refine congrArg (Option.map · ds[j]?) (funext fun d => ?_)
    rw [Function.comp_apply, place_succ, Nat.mul_comm 32, Nat.mul_assoc]
  have hone : place 0 = 1 := rfl
  rw [amount, amount, List.mapIdx_cons, List.sum_cons, hshift, List.sum_map_mul_left, List.map_id',
    hone, Nat.mul_one]

theorem amount_lt (ds : List Nat) : amount ds < place ds.length := by
  induction ds with
  | nil => exact place_pos 0
  | cons d ds ih =>
    rw [amount_cons, List.length_cons, place_succ]
    omega

/-! ## Reading runs -/

/-- A number is what its digits amount to, cut to a word, if there are no more than thirteen. -/
theorem readFrom_run (h : Run own ds) (hi : i + ds.length ≤ 13) (rest : List UInt8) :
    readFrom i folded (own ++ rest)
      = .ok (unfold ((folded + amount ds * place i) % 0x10000000000000000), rest) := by
  induction h generalizing i folded with
  | @last b d hdigit hlast =>
    rw [List.length_singleton] at hi
    have hamount : amount [d] = d % 32 := amount_cons d []
    rw [List.cons_append, readFrom, hamount]
    simp only [hdigit, if_neg (show ¬ 12 < i by omega), if_pos hlast, List.nil_append]
  | @more b d own ds hdigit hmore hrest ih =>
    rw [List.length_cons] at hi
    have hsum : d % 32 * place i + amount ds * place (i + 1) = amount (d :: ds) * place i := by
      rw [amount_cons, place_succ, Nat.add_mul, Nat.mul_comm (place i) 32, ← Nat.mul_assoc,
        Nat.mul_comm (amount ds)]
    have hnext := @ih (i + 1) ((folded + d % 32 * place i) % 0x10000000000000000) (by omega)
    rw [List.cons_append, readFrom]
    simp only [hdigit, if_neg (show ¬ 12 < i by omega), if_neg (show ¬ d < 32 by omega)]
    rw [hnext, Nat.mod_add_mod, Nat.add_assoc, hsum]

/-- With more digits, the fourteenth is refused. -/
theorem readFrom_long (h : Run own ds) (hi : i ≤ 13) (hlong : 13 < i + ds.length)
    (rest : List UInt8) : readFrom i folded (own ++ rest) = .error 13 := by
  induction h generalizing i folded with
  | @last b d hdigit hlast =>
    rw [List.length_singleton] at hlong
    obtain rfl : i = 13 := by omega
    rw [List.cons_append, readFrom]
    simp only [hdigit, if_pos (show 12 < 13 by decide)]
  | @more b d own ds hdigit hmore hrest ih =>
    rw [List.length_cons] at hlong
    rw [List.cons_append, readFrom]
    by_cases hlast : 12 < i
    · obtain rfl : i = 13 := by omega
      simp only [hdigit, if_pos hlast]
    · simp only [hdigit, if_neg hlast, if_neg (show ¬ d < 32 by omega)]
      exact ih (by omega) (by omega)

/-- What is read is a run of at most thirteen digits. -/
theorem exists_run_of_readFrom (h : readFrom i folded bytes = .ok (v, rest)) :
    ∃ own ds, Run own ds ∧ bytes = own ++ rest ∧ i + ds.length ≤ 13 := by
  fun_induction readFrom i folded bytes with
  | case1 => cases h
  | case2 => cases h
  | case3 => cases h
  | case4 i folded b rest' d hdigit hi folded' hlast =>
    cases h
    exact ⟨[b], [d], .last hdigit hlast, rfl, by rw [List.length_singleton]; omega⟩
  | case5 i folded b rest' d hdigit hi folded' hlast ih =>
    rcases ih h with ⟨own, ds, hrun, rfl, hlength⟩
    refine ⟨b :: own, d :: ds, .more hdigit (Nat.not_lt.1 hlast) hrun, rfl, ?_⟩
    rw [List.length_cons]
    omega

/-! ## Reading in place -/

theorem place_eq (j : Nat) : place j = 2 ^ (5 * j) := by
  rw [Nat.pow_mul]
  rfl

/-- Shifting a digit into a word adds what it counts, and bits beyond the word are lost. -/
theorem toNat_shift {folded : UInt64} (hfolded : folded.toNat < place i) (hi : i ≤ 12) (d : Nat) :
    (folded ||| UInt64.ofNat (d % 32) <<< UInt64.ofNat (5 * i)).toNat
      = (folded.toNat + d % 32 * place i) % 0x10000000000000000 := by
  have hword : 2 ^ 64 = place i * 2 ^ (64 - 5 * i) := by
    rw [place_eq, ← Nat.pow_add]
    congr 1
    omega
  -- what is left of the digit is a multiple of its place still
  have hdigit : d % 32 * place i % 2 ^ 64 = (d % 32 % 2 ^ (64 - 5 * i)) * place i := by
    rw [hword, Nat.mul_comm (d % 32), Nat.mul_mod_mul_left, Nat.mul_comm]
  have hshift : (UInt64.ofNat (d % 32) <<< UInt64.ofNat (5 * i)).toNat
      = (d % 32 % 2 ^ (64 - 5 * i)) <<< (5 * i) := by
    rw [UInt64.toNat_shiftLeft, UInt64.toNat_ofNat', UInt64.toNat_ofNat',
      Nat.mod_eq_of_lt (show d % 32 < 2 ^ 64 by omega),
      Nat.mod_eq_of_lt (show 5 * i < 2 ^ 64 by omega), Nat.mod_eq_of_lt (show 5 * i < 64 by omega),
      Nat.shiftLeft_eq, Nat.shiftLeft_eq, ← place_eq, hdigit]
  have hlow : folded.toNat < 2 ^ (5 * i) := by rwa [← place_eq]
  have hfits : folded.toNat + (d % 32 % 2 ^ (64 - 5 * i)) * place i < 2 ^ 64 := by
    have hhigh : d % 32 % 2 ^ (64 - 5 * i) + 1 ≤ 2 ^ (64 - 5 * i) :=
      Nat.mod_lt _ (Nat.two_pow_pos _)
    calc folded.toNat + (d % 32 % 2 ^ (64 - 5 * i)) * place i
        < (d % 32 % 2 ^ (64 - 5 * i) + 1) * place i := by
          rw [Nat.add_mul, Nat.one_mul, Nat.add_comm]
          exact Nat.add_lt_add_left hfolded _
      _ ≤ 2 ^ (64 - 5 * i) * place i := Nat.mul_le_mul_right _ hhigh
      _ = 2 ^ 64 := by rw [hword, Nat.mul_comm]
  calc (folded ||| UInt64.ofNat (d % 32) <<< UInt64.ofNat (5 * i)).toNat
      = (d % 32 % 2 ^ (64 - 5 * i)) <<< (5 * i) + folded.toNat := by
        rw [UInt64.toNat_or, hshift, Nat.or_comm, Nat.shiftLeft_add_eq_or_of_lt hlow]
    _ = (folded.toNat + (d % 32 % 2 ^ (64 - 5 * i)) * place i) % 2 ^ 64 := by
        rw [Nat.shiftLeft_eq, ← place_eq, Nat.add_comm, Nat.mod_eq_of_lt hfits]
    _ = (folded.toNat + d % 32 * place i) % 0x10000000000000000 := by
        rw [← hdigit, Nat.add_mod_mod]
        rfl

/-- A cursor reads what there is between it and its bound. -/
theorem decodeFrom_eq (bytes : List UInt8) (start room : Nat) {i : Nat} {folded : UInt64}
    (hfolded : folded.toNat < place i) :
    decodeFrom bytes folded (5 * i) (start + i) room =
      match readFrom i folded.toNat ((bytes.drop (start + i)).take room) with
      | .error j => (.error (.invalidVlq (start + j)), start + j)
      | .ok (v, rest) =>
        (.ok v, start + i + (((bytes.drop (start + i)).take room).length - rest.length)) := by
  induction room generalizing i folded with
  | zero => rfl
  | succ room ih =>
    rw [decodeFrom]
    cases hb : bytes[start + i]? with
    | none =>
      rw [List.drop_eq_nil_of_le (List.getElem?_eq_none_iff.1 hb)]
      rfl
    | some b =>
      rcases List.getElem?_eq_some_iff.1 hb with ⟨hlt, rfl⟩
      rw [List.drop_eq_getElem_cons hlt, List.take_succ_cons, readFrom, Option.bind_some]
      cases digit? bytes[start + i] with
      | none => rfl
      | some d =>
        simp only
        by_cases hi : 12 < i
        · rw [if_pos (show 60 < 5 * i by omega), if_pos hi]
        · rw [if_neg (show ¬ 60 < 5 * i by omega), if_neg hi,
            toNat_shift hfolded (Nat.not_lt.1 hi)]
          by_cases hlast : d < 32
          · rw [if_pos hlast, if_pos hlast, List.length_cons]
            simp only [Nat.add_sub_cancel_left]
          · -- the word is small enough for the next digit still
            have hnext : (folded ||| UInt64.ofNat (d % 32) <<< UInt64.ofNat (5 * i)).toNat
                < place (i + 1) := by
              have hdigit : d % 32 * place i ≤ 31 * place i := Nat.mul_le_mul_right _ (by omega)
              rw [toNat_shift hfolded (Nat.not_lt.1 hi), place_succ]
              exact Nat.lt_of_le_of_lt (Nat.mod_le _ _) (by omega)
            have hrest := ih hnext
            rw [toNat_shift hfolded (Nat.not_lt.1 hi)] at hrest
            rw [if_neg hlast, if_neg hlast, Nat.add_assoc start i 1]
            rw [show 5 * i + 5 = 5 * (i + 1) by omega, hrest]
            split
            · rfl
            · next v rest hread =>
              have hlength := length_lt_of_readFrom hread
              rw [List.length_cons]
              congr 1
              omega

theorem decodeAt_eq (bytes : List UInt8) (pos stop : Nat) :
    decodeAt bytes pos stop =
      match read ((bytes.drop pos).take (stop - pos)) with
      | .error j => (.error (.invalidVlq (pos + j)), pos + j)
      | .ok (v, rest) =>
        (.ok v, pos + (((bytes.drop pos).take (stop - pos)).length - rest.length)) :=
  @decodeFrom_eq bytes pos (stop - pos) 0 0 (place_pos 0)

/-! ## Runs among bytes -/

/-- The digits `ds` of one number stand at `pos`. -/
def RunAt (bytes : List UInt8) (pos : Nat) (ds : List Nat) : Prop :=
  Run ((bytes.drop pos).take ds.length) ds

variable {pos stop next : Nat}

theorem RunAt.unique (h : RunAt bytes pos ds) (h' : RunAt bytes pos ds') : ds = ds' := by
  have hsame : (bytes.drop pos).take ds.length ++ (bytes.drop pos).drop ds.length
      = (bytes.drop pos).take ds'.length ++ (bytes.drop pos).drop ds'.length := by
    rw [List.take_append_drop, List.take_append_drop]
  exact Run.unique h h' hsame

/-- In front of a bound there are the digits, and what is left after them. -/
theorem RunAt.take_eq (hstop : pos + ds.length ≤ stop) :
    (bytes.drop pos).take (stop - pos) = (bytes.drop pos).take ds.length
      ++ (bytes.drop (pos + ds.length)).take (stop - (pos + ds.length)) := by
  have hsplit : stop - pos = ds.length + (stop - (pos + ds.length)) := by omega
  rw [hsplit, List.take_add, List.drop_drop]

/-- A run of at most thirteen digits is read, cut to a word. -/
theorem RunAt.decodeAt (h : RunAt bytes pos ds) (hstop : pos + ds.length ≤ stop)
    (hlength : ds.length ≤ 13) :
    decodeAt bytes pos stop
      = (.ok (unfold (amount ds % 0x10000000000000000)), pos + ds.length) := by
  have hread : readFrom 0 0 ((bytes.drop pos).take ds.length
      ++ (bytes.drop (pos + ds.length)).take (stop - (pos + ds.length))) = _ :=
    readFrom_run h (show 0 + ds.length ≤ 13 by omega) _
  have hzero : 0 + amount ds * place 0 = amount ds := by
    have hone : place 0 = 1 := rfl
    rw [hone, Nat.mul_one, Nat.zero_add]
  rw [decodeAt_eq, RunAt.take_eq hstop, read, hread, hzero]
  simp only [List.length_append, Nat.add_sub_cancel, h.length_eq]

/-- A longer one is refused at its fourteenth digit. -/
theorem RunAt.decodeAt_long (h : RunAt bytes pos ds) (hstop : pos + ds.length ≤ stop)
    (hlength : 13 < ds.length) :
    Vlq.decodeAt bytes pos stop = (.error (.invalidVlq (pos + 13)), pos + 13) := by
  have hread : readFrom 0 0 ((bytes.drop pos).take ds.length
      ++ (bytes.drop (pos + ds.length)).take (stop - (pos + ds.length))) = _ :=
    readFrom_long h (Nat.zero_le 13) (show 13 < 0 + ds.length by omega) _
  rw [decodeAt_eq, RunAt.take_eq hstop, read, hread]

/-- Whatever is read is such a run. -/
theorem exists_runAt (h : decodeAt bytes pos stop = (.ok v, next)) :
    ∃ ds, RunAt bytes pos ds ∧ next = pos + ds.length ∧ next ≤ stop ∧ ds.length ≤ 13 := by
  rw [decodeAt_eq] at h
  cases hread : read ((bytes.drop pos).take (stop - pos)) with
  | error j =>
    rw [hread] at h
    cases h
  | ok result =>
    rcases result with ⟨v', rest⟩
    rw [hread] at h
    simp only [Prod.mk.injEq] at h
    rcases h with ⟨-, rfl⟩
    rcases exists_run_of_readFrom hread with ⟨own, ds, hrun, htake, hlength⟩
    have hown := hrun.length_eq
    have hpos := hrun.length_pos
    have htotal : (own ++ rest).length ≤ stop - pos := by
      rw [← htake]
      exact List.length_take_le _ _
    rw [List.length_append] at htotal
    refine ⟨ds, ?_, ?_, ?_, by omega⟩
    · -- the run stands at the front of what there is in front of the bound
      have hfront : (bytes.drop pos).take ds.length = own := by
        calc (bytes.drop pos).take ds.length
            = ((bytes.drop pos).take (stop - pos)).take ds.length := by
              rw [List.take_take, Nat.min_eq_left (by omega)]
          _ = (own ++ rest).take own.length := by rw [htake, hown]
          _ = own := List.take_left
      rw [RunAt, hfront]
      exact hrun
    · rw [htake, List.length_append, Nat.add_sub_cancel, hown]
    · rw [htake, List.length_append, Nat.add_sub_cancel]
      omega

/-- Nothing else is wrong with a number than one of its digits, or that one is missing. -/
theorem eq_invalidVlq_of_decodeAt {e : Error} (h : decodeAt bytes pos stop = (.error e, next)) :
    e = .invalidVlq next := by
  rw [decodeAt_eq] at h
  cases hread : read ((bytes.drop pos).take (stop - pos)) with
  | error j =>
    rw [hread] at h
    simp only [Prod.mk.injEq, Except.error.injEq] at h
    rw [← h.1, h.2]
  | ok result =>
    rw [hread] at h
    cases h

/-! ## Exact numbers -/

/-- What is read is a run of at most thirteen digits in front of the bound, and the cursor is after
its last one; any failure is an invalid digit where the cursor stays.  A run that amounts to less
than a word holds is read exactly: half of what it amounts to, negative if that is odd, where minus
zero is the least 32-bit number.  A run of thirteen digits that amounts to more is read as well, and
loses the bit that a word does not hold.  All longer runs are refused. -/
theorem decodeAt_digits (bytes : List UInt8) (pos stop : Nat) :
    (∀ v next, decodeAt bytes pos stop = (.ok v, next) →
        ∃ ds, RunAt bytes pos ds ∧ next = pos + ds.length ∧ next ≤ stop ∧ ds.length ≤ 13) ∧
      (∀ e next, decodeAt bytes pos stop = (.error e, next) → e = .invalidVlq next) ∧
      ∀ ds, RunAt bytes pos ds → pos + ds.length ≤ stop →
        (ds.length ≤ 13 → amount ds < 0x10000000000000000 →
          ∃ v, decodeAt bytes pos stop = (.ok v, pos + ds.length) ∧
            (amount ds % 2 = 0 → v = (amount ds / 2 : Nat)) ∧
            (amount ds % 2 = 1 → amount ds / 2 ≠ 0 → v = -((amount ds / 2 : Nat) : Int)) ∧
            (amount ds = 1 → v = -0x80000000)) ∧
        (ds.length ≤ 13 → 0x10000000000000000 ≤ amount ds →
          ds.length = 13 ∧ decodeAt bytes pos stop
            = (.ok (unfold (amount ds - 0x10000000000000000)), pos + 13)) ∧
        (13 < ds.length →
          decodeAt bytes pos stop = (.error (.invalidVlq (pos + 13)), pos + 13)) := by
  refine ⟨fun v next => exists_runAt, fun e next => eq_invalidVlq_of_decodeAt, ?_⟩
  intro ds hrun hstop
  refine ⟨?_, ?_, hrun.decodeAt_long hstop⟩
  · intro hlength hword
    refine ⟨_, hrun.decodeAt hstop hlength, ?_⟩
    rw [Nat.mod_eq_of_lt hword]
    refine ⟨fun heven => if_pos heven, fun hodd hhalf => ?_, fun hone => ?_⟩
    · rw [unfold, if_neg (by omega), if_neg hhalf]
    · rw [hone]
      rfl
  · intro hlength hword
    have hlt := amount_lt ds
    have htwelve : place 12 = 0x1000000000000000 := rfl
    have hthirteen : place 13 = 0x20000000000000000 := rfl
    have hall : ds.length = 13 := by
      by_contra hne
      have hplace := place_le_place (show ds.length ≤ 12 by omega)
      omega
    rw [hall, hthirteen] at hlt
    refine ⟨hall, ?_⟩
    have hread := hrun.decodeAt hstop hlength
    have hcut : amount ds % 0x10000000000000000 = amount ds - 0x10000000000000000 := by omega
    rwa [hcut, hall] at hread

/-- The same digit again and again, in front of a run. -/
theorem Run.replicate {b : UInt8} {d : Nat} (hdigit : digit? b = some d) (hmore : 32 ≤ d)
    (h : Run own ds) (count : Nat) :
    Run (List.replicate count b ++ own) (List.replicate count d ++ ds) := by
  induction count with
  | zero => exact h
  | succ count ih => exact .more hdigit hmore ih

/-- Between two commas, the largest negative number; and a number whose fourteenth digit is refused
although it counts nothing. -/
theorem decodeAt_digits_thirteen :
    decodeAt (44 :: List.replicate 12 47 ++ [80, 44]) 1 14 = (.ok (-0x7FFFFFFFFFFFFFFF), 14) ∧
      decodeAt (List.replicate 13 103 ++ [65]) 0 14 = (.error (.invalidVlq 13), 13) := by
  have hrun : RunAt (44 :: List.replicate 12 47 ++ [80, 44]) 1 (List.replicate 12 63 ++ [15]) :=
    (Run.last (b := 80) rfl (by decide)).replicate (b := 47) rfl (by decide) 12
  have hlong : RunAt (List.replicate 13 103 ++ [65]) 0 (List.replicate 13 32 ++ [0]) :=
    (Run.last (b := 65) rfl (by decide)).replicate (b := 103) rfl (by decide) 13
  constructor
  · rcases ((decodeAt_digits _ 1 14).2.2 _ hrun (by decide)).1 (by decide) (by decide) with
      ⟨v, hread, -, hodd, -⟩
    rw [hread, hodd (by decide) (by decide)]
    decide
  · exact ((decodeAt_digits _ 0 14).2.2 _ hlong (by decide)).2.2 (by decide)

/-- The highest bit of the thirteenth digit is lost: digits that amount to 2^64 are read as zero. -/
theorem thirteenth_digit_lost :
    RunAt (List.replicate 12 103 ++ [81]) 0 (List.replicate 12 32 ++ [16]) ∧
      amount (List.replicate 12 32 ++ [16]) = 0x10000000000000000 ∧
      decodeAt (List.replicate 12 103 ++ [81]) 0 13 = (.ok 0, 13) :=
  ⟨(Run.last (b := 81) rfl (by decide)).replicate (b := 103) rfl (by decide) 12, by decide,
    by decide⟩

/-! ## Fewest digits -/

/-- A number is written as a run. -/
theorem run_digits (n : Nat) : Run (Utf8.encode ((digits n).map digitChar)) (digits n) := by
  fun_induction digits n with
  | case1 n hn =>
    rcases digit?_digitChar (d := n) (by omega) with ⟨b, hbyte, hdigit⟩
    have hbytes : Utf8.encode ([n].map digitChar) = [b] := by simp [Utf8.encode, hbyte]
    rw [hbytes]
    exact .last hdigit hn
  | case2 n hn ih =>
    rcases digit?_digitChar (d := n % 32 + 32) (by omega) with ⟨b, hbyte, hdigit⟩
    have hbytes : Utf8.encode (((n % 32 + 32) :: digits (n / 32)).map digitChar)
        = b :: Utf8.encode ((digits (n / 32)).map digitChar) := by
      simp [Utf8.encode, hbyte]
    rw [hbytes]
    exact .more hdigit (by omega) ih

theorem amount_digits (n : Nat) : amount (digits n) = n := by
  fun_induction digits n with
  | case1 n hn =>
    have hnil : amount [] = 0 := rfl
    rw [amount_cons, hnil]
    omega
  | case2 n hn ih =>
    rw [amount_cons, ih]
    omega

/-- No more digits are written than the number needs. -/
theorem length_digits_le {k : Nat} (hn : n < place k) (hk : 0 < k) : (digits n).length ≤ k := by
  obtain ⟨k, rfl⟩ := Nat.exists_eq_succ_of_ne_zero (Nat.ne_zero_of_lt hk)
  clear hk
  induction k generalizing n with
  | zero =>
    have hone : place 1 = 32 := rfl
    rw [digits, if_pos (hone ▸ hn), List.length_singleton]
  | succ k ih =>
    rw [digits]
    by_cases hsmall : n < 32
    · rw [if_pos hsmall, List.length_singleton]
      exact Nat.le_add_left 1 _
    · rw [place_succ] at hn
      have hrest := ih (n := n / 32) (Nat.div_lt_of_lt_mul (by rwa [Nat.mul_comm]))
      rw [if_neg hsmall, List.length_cons]
      exact Nat.succ_le_succ hrest

/-- A word is the folded form of the number read from it, unless that may come from minus zero. -/
theorem fold_unfold (hn : n < 0x10000000000000000) (hmin : unfold n ≠ -0x80000000) :
    fold (unfold n) = n := by
  unfold unfold at hmin ⊢
  by_cases heven : n % 2 = 0
  · rw [if_pos heven, fold_eq (by omega), if_neg (by omega)]
    omega
  · rw [if_neg heven] at hmin ⊢
    by_cases hhalf : n / 2 = 0
    · exact absurd (if_pos hhalf) hmin
    · rw [if_neg hhalf, fold_eq (by omega), if_pos (by omega)]
      omega

theorem length_encode (v : Int) :
    (Utf8.encode (encode v)).length = (digits (fold v)).length :=
  (run_digits (fold v)).length_eq

/-- Wherever it stands, a written number is a run. -/
theorem runAt_encode (v : Int) (before after : List UInt8) :
    RunAt (before ++ Utf8.encode (encode v) ++ after) before.length (digits (fold v)) := by
  have hfront : ((before ++ Utf8.encode (encode v) ++ after).drop before.length).take
      (digits (fold v)).length = Utf8.encode (encode v) := by
    rw [List.append_assoc, List.drop_left, ← length_encode, List.take_left]
  rw [RunAt, hfront]
  exact run_digits (fold v)

/-- No number has a shorter form, but the least 32-bit number, which is minus zero as well. -/
theorem length_encode_le (h : decodeAt bytes pos stop = (.ok v, next)) (hmin : v ≠ -0x80000000) :
    pos + (Utf8.encode (encode v)).length ≤ next := by
  rcases exists_runAt h with ⟨ds, hrun, rfl, hstop, hlength⟩
  have hread := hrun.decodeAt hstop hlength
  rw [h] at hread
  simp only [Prod.mk.injEq, Except.ok.injEq, and_true] at hread
  have hfold : fold v = amount ds % 0x10000000000000000 := by
    rw [hread] at hmin ⊢
    exact fold_unfold (Nat.mod_lt _ (by decide)) hmin
  have hlt : fold v < place ds.length := by
    rw [hfold]
    exact Nat.lt_of_le_of_lt (Nat.mod_le _ _) (amount_lt ds)
  rw [length_encode]
  exact Nat.add_le_add_left (length_digits_le hlt hrun.length_pos) pos

/-- A number that fits into a word with its sign is read back from what it is written as, whatever
stands before and after and wherever the bound is behind it.  With a bound in front of its last
digit it is refused.  No fewer digits stand for it, unless it is the least 32-bit number. -/
theorem decodeAt_encode {v : Int} (hv : v.natAbs < 0x8000000000000000)
    (before after : List UInt8) :
    (∀ stop, before.length + (Utf8.encode (encode v)).length ≤ stop →
        decodeAt (before ++ Utf8.encode (encode v) ++ after) before.length stop
          = (.ok v, before.length + (Utf8.encode (encode v)).length)) ∧
      (∀ stop, stop < before.length + (Utf8.encode (encode v)).length →
        ∃ cursor, decodeAt (before ++ Utf8.encode (encode v) ++ after) before.length stop
          = (.error (.invalidVlq cursor), cursor)) ∧
      (v ≠ -0x80000000 → ∀ bytes pos stop next, decodeAt bytes pos stop = (.ok v, next) →
        pos + (Utf8.encode (encode v)).length ≤ next) := by
  have hrun := runAt_encode v before after
  rw [length_encode]
  refine ⟨?_, ?_, ?_⟩
  · intro stop hstop
    have hword : place 13 = 0x20000000000000000 := rfl
    have hlt := fold_lt v
    have hlength : (digits (fold v)).length ≤ 13 := length_digits_le (by omega) (by decide)
    rw [hrun.decodeAt hstop hlength, amount_digits, Nat.mod_eq_of_lt hlt, unfold_fold hv]
  · intro stop hstop
    rcases hread : decodeAt (before ++ Utf8.encode (encode v) ++ after) before.length stop with
      ⟨result, cursor⟩
    cases result with
    | error e =>
      rw [eq_invalidVlq_of_decodeAt hread]
      exact ⟨cursor, rfl⟩
    | ok v' =>
      -- what would be read is the run, which goes past the bound
      rcases exists_runAt hread with ⟨ds, hrun', rfl, hnext, -⟩
      rw [hrun'.unique hrun] at hnext
      omega
  · intro hmin bytes pos stop next h
    rw [← length_encode]
    exact length_encode_le h hmin

/-- The largest negative number between two commas, with a bound behind it and one inside it. -/
theorem decodeAt_encode_largest :
    Utf8.encode (encode (-0x7FFFFFFFFFFFFFFF)) = List.replicate 12 47 ++ [80] ∧
      decodeAt ([44] ++ (List.replicate 12 47 ++ [80]) ++ [44]) 1 15
        = (.ok (-0x7FFFFFFFFFFFFFFF), 14) ∧
      (∃ cursor, decodeAt ([44] ++ (List.replicate 12 47 ++ [80]) ++ [44]) 1 13
        = (.error (.invalidVlq cursor), cursor)) ∧
      ∀ bytes pos stop next,
        decodeAt bytes pos stop = (.ok (-0x7FFFFFFFFFFFFFFF), next) → pos + 13 ≤ next := by
  have hbytes : Utf8.encode (encode (-0x7FFFFFFFFFFFFFFF)) = List.replicate 12 47 ++ [80] := by
    decide +kernel
  rcases decodeAt_encode (v := -0x7FFFFFFFFFFFFFFF) (by decide) [44] [44] with
    ⟨hread, hcut, hshortest⟩
  rw [hbytes] at hread hcut hshortest
  exact ⟨hbytes, hread 15 (by decide), hcut 13 (by decide), hshortest (by decide)⟩

/-- Minus zero is a shorter form of the least 32-bit number, which takes seven digits to write. -/
example : decodeAt [66] 0 1 = (.ok (-0x80000000), 1) := by decide

end Vlq

end Retrace
