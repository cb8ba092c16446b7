import Mathlib.Data.List.Chain
import Retrace.Proofs.Text.Former
import Retrace.Proofs.Text.Kept

/-!
# Place — a position moves with the last edit in front of it

The run over the edits that moves a position is told by one edit alone: the last one that ends at the
position or before it.

* `Patch.stops` — where the edits end, and where their new texts end;
* `Patch.placeAlong`, `Patch.place` — where the last edit in front of a position takes it;
* `Patch.moved?_eq` — that is where a position goes if no edit replaces it;
* `Edit.Apart`, `Patch.apart_normalize` — in the normal form there is old text between two edits;
* `Patch.stops_eq_map` — so each stop goes where it would go as a position of the old text.
-/

namespace Retrace

theorem Pos.lt_of_le_of_ne {p q : Pos} (hle : p ≤ q) (hne : p ≠ q) : p < q := by
  by_cases h : p < q
  · exact h
  · exact absurd (Pos.le_antisymm hle (Pos.not_lt.1 h)) hne

namespace Patch

variable {old new q : Pos} {edits : List Edit} {p : Patch}

/-! ## The last edit in front -/

/-- The stops of the edits and of their new texts, if the text behind `old` goes behind `new`. -/
def stopsFrom (old new : Pos) (edits : List Edit) : List (Pos × Pos) :=
  (edits.zip (newRangesFrom old new edits)).map fun (e, r) => (e.range.stop, r.stop)

/-- Where the edits end, and where their new texts end. -/
def stops (p : Patch) : List (Pos × Pos) :=
  (p.edits.zip p.newRanges).map fun (e, r) => (e.range.stop, r.stop)

/-- The last edit that ends at a position or before it takes the position along, to where its new text
ends in its range of `ranges`. -/
def placeAlong (p : Patch) (ranges : List Range) (q : Pos) : Pos :=
  let stops := (p.edits.zip ranges).map fun (e, r) => (e.range.stop, r.stop)
  match (stops.filter fun x => x.1 ≤ q).getLast? with
  | none => q
  | some (old, new) => shift old new q

def place (p : Patch) (q : Pos) : Pos := p.placeAlong p.newRanges q

/-- No edit replaces what stands at a position. -/
def Keeps (p : Patch) (q : Pos) : Prop := ∀ e ∈ p.edits, ¬ e.range.Contains q

instance (p : Patch) (q : Pos) : Decidable (p.Keeps q) :=
  inferInstanceAs (Decidable (∀ e ∈ p.edits, ¬ e.range.Contains q))

theorem stopsFrom_cons (e : Edit) (edits : List Edit) :
    stopsFrom old new (e :: edits)
      = (e.range.stop, e.newStop (shift old new e.range.start))
        :: stopsFrom e.range.stop (e.newStop (shift old new e.range.start)) edits := rfl

theorem exists_edit_of_mem_stopsFrom {x : Pos × Pos} (h : x ∈ stopsFrom old new edits) :
    ∃ e ∈ edits, e.range.stop = x.1 := by
  rcases List.mem_map.1 h with ⟨⟨e, r⟩, hzip, rfl⟩
  exact ⟨e, (List.of_mem_zip hzip).1, rfl⟩

/-- No edit ends in front of a position in front of which none starts. -/
theorem filter_stopsFrom_eq_nil (h : ∀ e ∈ edits, q < e.range.stop) :
    ((stopsFrom old new edits).filter fun x => x.1 ≤ q) = [] := by
  refine List.filter_eq_nil_iff.2 fun x hx => ?_
  rcases exists_edit_of_mem_stopsFrom hx with ⟨e, he, hstop⟩
  rw [decide_eq_true_iff, ← hstop]
  exact fun hle => Pos.lt_irrefl q (Pos.lt_of_lt_of_le (h e he) hle)

/-- What the run over the edits does to a position that none of them replaces. -/
theorem movedFrom_eq_shift (hordered : Edit.Ordered edits)
    (hkeeps : ∀ e ∈ edits, ¬ e.range.Contains q) :
    movedFrom old new q edits
      = some (match ((stopsFrom old new edits).filter fun x => x.1 ≤ q).getLast? with
        | none => shift old new q
        | some (old', new') => shift old' new' q) := by
  induction edits generalizing old new with
  | nil => rfl
  | cons e edits ih =>
    have hrest : ∀ f ∈ edits, ¬ f.range.Contains q := fun f hf => hkeeps f (List.mem_cons_of_mem e hf)
    rw [movedFrom]
    by_cases hstart : q < e.range.start
    · -- in front of this edit, and so of all of them
      have hnone : ∀ f ∈ e :: edits, q < f.range.stop := by
        intro f hf
        refine Pos.lt_of_lt_of_le hstart ?_
        rcases List.mem_cons.1 hf with rfl | hf
        · exact hordered.head
        · exact Pos.le_trans (Pos.le_trans hordered.head (hordered.stop_le_start hf))
            (forward_of_ordered hordered (List.mem_cons_of_mem e hf))
      rw [if_pos hstart, filter_stopsFrom_eq_nil hnone]
      rfl
    · have hstop : ¬ q < e.range.stop := fun h =>
        hkeeps e List.mem_cons_self ⟨Pos.not_lt.1 hstart, h⟩
      have hfilter : ((stopsFrom old new (e :: edits)).filter fun x => x.1 ≤ q)
          = (e.range.stop, e.newStop (shift old new e.range.start))
            :: (stopsFrom e.range.stop (e.newStop (shift old new e.range.start)) edits).filter
              fun x => x.1 ≤ q := by
        rw [stopsFrom_cons]
        exact List.filter_cons_of_pos (decide_eq_true (Pos.not_lt.1 hstop))
      rw [if_neg hstart, if_neg hstop, ih hordered.tail hrest, hfilter, List.getLast?_cons]
      cases ((stopsFrom e.range.stop (e.newStop (shift old new e.range.start)) edits).filter
        fun x => x.1 ≤ q).getLast? <;> rfl

/-- A position that no edit replaces goes where the last edit in front takes it, any other one goes
nowhere. -/
theorem moved?_eq (p : Patch) (q : Pos) :
    p.moved? q = if p.Keeps q then some (p.place q) else none := by
  by_cases hkeeps : p.Keeps q
  · rw [if_pos hkeeps, moved?, movedFrom_eq_shift p.ordered hkeeps, place, placeAlong, newRanges,
      ← stopsFrom]
    cases ((stopsFrom Pos.zero Pos.zero p.edits).filter fun x => x.1 ≤ q).getLast? with
    | none => exact congrArg some (shift_same (Pos.zero_le q))
    | some x => rfl
  · rw [if_neg hkeeps]
    simp only [Keeps, not_forall, not_not] at hkeeps
    rcases hkeeps with ⟨e, he, hcontains⟩
    exact movedFrom_of_contains p.ordered he hcontains

end Patch

/-! ## The normal form -/

/-- There is old text between each edit and the next. -/
def Edit.Apart (edits : List Edit) : Prop :=
  edits.IsChain fun e f => e.range.stop < f.range.start

theorem Edit.Apart.next {e : Edit} {edits : List Edit} (h : Apart (e :: edits)) :
    ∀ f ∈ edits.head?, e.range.stop < f.range.start := (List.isChain_cons.1 h).1

theorem Edit.Apart.tail {e : Edit} {edits : List Edit} (h : Apart (e :: edits)) : Apart edits :=
  (List.isChain_cons.1 h).2

namespace Patch

variable {old new : Pos} {edits : List Edit}

/-- Where edits are apart, the stop of one goes where its new text ends. -/
theorem map_stopsFrom (hordered : Edit.Ordered edits) (hapart : Edit.Apart edits) :
    (stopsFrom old new edits).map (Prod.map id some)
      = edits.map fun e => (e.range.stop, movedFrom old new e.range.stop edits) := by
  induction edits generalizing old new with
  | nil => rfl
  | cons e edits ih =>
    have hbehind : ∀ q, e.range.stop ≤ q → movedFrom old new q (e :: edits)
        = movedFrom e.range.stop (e.newStop (shift old new e.range.start)) q edits := by
      intro q hq
      rw [movedFrom, if_neg (Pos.not_lt.2 (Pos.le_trans hordered.head hq)),
        if_neg (Pos.not_lt.2 hq)]
    have hfirst : movedFrom old new e.range.stop (e :: edits)
        = some (e.newStop (shift old new e.range.start)) := by
      rw [hbehind _ (Pos.le_refl _)]
      cases edits with
      | nil => rw [movedFrom, shift_self]
      | cons f rest => rw [movedFrom, if_pos (hapart.next f rfl), shift_self]
    have hrest : (edits.map fun f => (f.range.stop, movedFrom old new f.range.stop (e :: edits)))
        = edits.map fun f => (f.range.stop,
            movedFrom e.range.stop (e.newStop (shift old new e.range.start)) f.range.stop edits) := by
      refine List.map_congr_left fun f hf => ?_
      rw [hbehind _ (Pos.le_trans (hordered.stop_le_start hf) (forward_of_ordered hordered.tail hf))]
    rw [stopsFrom_cons, List.map_cons, List.map_cons, hfirst, hrest, ih hordered.tail hapart.tail]
    rfl

/-- The stops of edits that are apart go where any position goes that no edit replaces. -/
theorem stops_eq_map {p : Patch} (hapart : Edit.Apart p.edits) :
    p.stops = p.edits.map fun e => (e.range.stop, p.place e.range.stop) := by
  have hmoved : p.stops.map (Prod.map id some)
      = p.edits.map fun e => (e.range.stop, p.moved? e.range.stop) :=
    map_stopsFrom p.ordered hapart
  have hplace : ∀ e ∈ p.edits, p.moved? e.range.stop = some (p.place e.range.stop) := by
    intro e he
    have hmem : (e.range.stop, p.moved? e.range.stop) ∈ p.stops.map (Prod.map id some) :=
      hmoved ▸ List.mem_map_of_mem he
    rcases List.mem_map.1 hmem with ⟨x, -, hx⟩
    have hsome : some x.2 = p.moved? e.range.stop := congrArg Prod.snd hx
    rw [moved?_eq] at hsome ⊢
    split at hsome
    · rename_i hkeeps
      exact if_pos hkeeps
    · cases hsome
  refine (Function.injective_id.prodMap (Option.some_injective Pos)).list_map ?_
  rw [hmoved, List.map_map]
  exact List.map_congr_left fun e he => congrArg (Prod.mk e.range.stop) (hplace e he)

theorem apart_normalizeFrom {last : Edit} {edits : List Edit}
    (h : Edit.Ordered (last :: edits)) : Edit.Apart (normalizeFrom last edits) := by
  fun_induction normalizeFrom last edits with
  | case1 last => exact List.isChain_singleton last
  | case2 last e rest htouch ih => exact ih (h.join htouch)
  | case3 last e rest htouch hempty ih => exact ih (h.skip hempty.1)
  | case4 last e rest htouch hempty ih =>
    refine List.isChain_cons.2 ⟨fun f hf => ?_, ih h.tail⟩
    rw [start_head_normalizeFrom h.tail f hf]
    exact Pos.lt_of_le_of_ne h.2.1 htouch

theorem apart_normalize (p : Patch) : Edit.Apart p.normalize.edits := by
  have happart : ∀ {edits : List Edit}, Edit.Ordered edits → Edit.Apart (normalizeEdits edits) := by
    intro edits h
    fun_induction normalizeEdits edits with
    | case1 => exact List.isChain_nil
    | case2 e rest hempty ih => exact ih h.tail
    | case3 e rest hempty => exact apart_normalizeFrom h
  exact happart p.ordered

end Patch

end Retrace
