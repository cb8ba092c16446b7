import Retrace.Proofs.Text.Measure

/-!
# Moved — where a position outside every replaced range goes

A position that no edit replaces moves along with the edit in front of it, as if every line were as
long as needed: no text is looked at.

* `Patch.moved?` — the new place of a position, if there is one;
* `Patch.moved?_normalize` — a patch and its normal form move positions alike;
* `Patch.ofEdits_eq_ok` — the patches are exactly the lists of edits that are accepted.
-/

namespace Retrace

namespace Edit

variable {e f : Edit} {edits : List Edit} {q : Pos}

/-- The end of the new text of an edit whose start went to `p`. -/
def newStop (e : Edit) (p : Pos) : Pos := (Extent.ofText e.text.toList).endFrom p

/-- Every edit after the first starts where the first one stops, or later. -/
theorem Ordered.stop_le_start (h : Ordered (e :: edits)) (hf : f ∈ edits) :
    e.range.stop ≤ f.range.start := by
  induction edits generalizing e with
  | nil => cases hf
  | cons g rest ih =>
    have hstop : e.range.stop ≤ g.range.start := h.2.1
    rcases List.mem_cons.1 hf with rfl | hrest
    · exact hstop
    · exact Pos.le_trans hstop (Pos.le_trans h.tail.head (ih h.tail hrest))

/-- What comes after the first edit starts where that one stops, or later. -/
theorem Ordered.next (h : Ordered (e :: edits)) :
    ∀ f ∈ edits.head?, e.range.stop ≤ f.range.start := by
  intro f hf
  exact h.stop_le_start (List.mem_of_mem_head? hf)

theorem join_range (h : Ordered (e :: f :: edits)) (htouch : e.range.stop = f.range.start) :
    (e.join f).range = ⟨e.range.start, f.range.stop⟩ :=
  Range.cover_of_touch h.head h.tail.head htouch

theorem join_newStop (e f : Edit) (p : Pos) : (e.join f).newStop p = f.newStop (e.newStop p) := by
  simp [newStop, join, Extent.ofText_append, Extent.endFrom_add]

theorem newStop_of_text_eq (h : e.text = "") (p : Pos) : e.newStop p = p := by
  simp [newStop, h]

end Edit

namespace Patch

/-! ## Accepted lists of edits -/

theorem firstClash?_of_ordered {edits : List Edit} (h : Edit.Ordered edits) :
    firstClash? edits = none := by
  induction edits with
  | nil => rfl
  | cons e rest ih =>
    cases rest with
    | nil => rfl
    | cons f rest =>
      rw [firstClash?, if_pos h.2.1]
      exact ih h.tail

theorem forward_of_ordered {edits : List Edit} (h : Edit.Ordered edits) {e : Edit}
    (he : e ∈ edits) : e.range.Forward := by
  induction edits with
  | nil => cases he
  | cons f rest ih =>
    rcases List.mem_cons.1 he with rfl | hrest
    · exact h.head
    · exact ih h.tail hrest

/-- A patch is its edits. -/
theorem ext_edits {p q : Patch} (h : p.edits = q.edits) : p = q := by
  cases p
  cases q
  cases h
  rfl

/-- The edits of a patch are accepted, and they make that patch. -/
theorem ofEdits_edits (p : Patch) : ofEdits p.edits = .ok p := by
  have hforward : p.edits.find? (fun e => ¬ e.range.Forward) = none := by
    simpa using fun e he => forward_of_ordered p.ordered he
  unfold ofEdits
  split
  · rename_i e he
    rw [hforward] at he
    cases he
  · split
    · rename_i e f hclash
      rw [firstClash?_of_ordered p.ordered] at hclash
      cases hclash
    · rfl

theorem ofEdits_eq_ok {edits : List Edit} {p : Patch} :
    ofEdits edits = .ok p ↔ p.edits = edits := by
  constructor
  · intro h
    unfold ofEdits at h
    split at h
    · cases h
    · split at h
      · cases h
      · cases h
        rfl
  · rintro rfl
    exact ofEdits_edits p

/-! ## Moving a position -/

/-- Where `q` goes, given where the stop `old` of the edit before went.  Positions inside a replaced
range go nowhere. -/
def movedFrom (old new q : Pos) : List Edit → Option Pos
  | [] => some (shift old new q)
  | e :: rest =>
    if q < e.range.start then some (shift old new q)
    else if q < e.range.stop then none
    else movedFrom e.range.stop (e.newStop (shift old new e.range.start)) q rest

/-- The position at which an unedited position stands in the edited text. -/
def moved? (p : Patch) (q : Pos) : Option Pos := movedFrom Pos.zero Pos.zero q p.edits

variable {old new q mid : Pos} {e f : Edit} {edits : List Edit}

/-- A position before every edit may be taken as the place from which to carry over. -/
theorem movedFrom_shift (hold : old ≤ mid) (hq : mid ≤ q)
    (hstart : ∀ e ∈ edits.head?, mid ≤ e.range.start) :
    movedFrom mid (shift old new mid) q edits = movedFrom old new q edits := by
  cases edits with
  | nil => rw [movedFrom, movedFrom, shift_shift hold hq]
  | cons e rest =>
    have he : mid ≤ e.range.start := hstart e rfl
    rw [movedFrom, movedFrom, shift_shift hold hq, shift_shift hold he]

/-- An edit that does nothing moves nothing. -/
theorem movedFrom_skip (hold : old ≤ e.range.start) (hordered : Edit.Ordered (e :: edits))
    (hempty : e.IsEmpty) : movedFrom old new q (e :: edits) = movedFrom old new q edits := by
  have hrange : e.range.start = e.range.stop := hempty.1
  rw [movedFrom]
  split
  · -- in front of the edit, and so in front of all later ones
    rename_i hlt
    cases edits with
    | nil => rfl
    | cons f rest =>
      have hf : e.range.start ≤ f.range.start := hrange ▸ hordered.2.1
      rw [movedFrom, if_pos (Pos.lt_of_lt_of_le hlt hf)]
  · -- behind it: the empty range is passed without a change of place
    rename_i hge
    rw [if_neg (hrange ▸ hge), Edit.newStop_of_text_eq hempty.2, ← hrange]
    refine movedFrom_shift hold (Pos.not_lt.1 hge) ?_
    intro f hf
    rw [hrange]
    exact hordered.next f hf

/-- Two edits that touch move positions as their join does. -/
theorem movedFrom_join (hordered : Edit.Ordered (e :: f :: edits))
    (htouch : e.range.stop = f.range.start) :
    movedFrom old new q (e.join f :: edits) = movedFrom old new q (e :: f :: edits) := by
  have hforward : e.range.stop ≤ f.range.stop := htouch ▸ hordered.tail.head
  rw [movedFrom, movedFrom, Edit.join_range hordered htouch]
  by_cases hstart : q < e.range.start
  · rw [if_pos hstart, if_pos hstart]
  · rw [if_neg hstart, if_neg hstart]
    by_cases hstop : q < e.range.stop
    · rw [if_pos hstop, if_pos (Pos.lt_of_lt_of_le hstop hforward)]
    -- between the two there is no place that could stay
    · rw [if_neg hstop, movedFrom, ← htouch, if_neg hstop, shift_self, Edit.join_newStop]

theorem movedFrom_normalizeFrom {last : Edit} (hold : old ≤ last.range.start)
    (hordered : Edit.Ordered (last :: edits)) :
    movedFrom old new q (normalizeFrom last edits) = movedFrom old new q (last :: edits) := by
  fun_induction normalizeFrom last edits generalizing old new with
  | case1 last => rfl
  | case2 last e rest htouch ih =>
    have hjoin : old ≤ (last.join e).range.start := by
      rw [Edit.join_range hordered htouch]
      exact hold
    rw [ih hjoin (hordered.join htouch), movedFrom_join hordered htouch]
  | case3 last e rest htouch hempty ih =>
    rw [ih hold (hordered.skip hempty.1), movedFrom, movedFrom,
      movedFrom_skip hordered.2.1 hordered.tail hempty]
  | case4 last e rest htouch hempty ih =>
    rw [movedFrom, movedFrom, ih hordered.2.1 hordered.tail]

theorem movedFrom_normalizeEdits (hold : ∀ e ∈ edits, old ≤ e.range.start)
    (hordered : Edit.Ordered edits) :
    movedFrom old new q (normalizeEdits edits) = movedFrom old new q edits := by
  fun_induction normalizeEdits edits with
  | case1 => rfl
  | case2 e rest hempty ih =>
    rw [ih (fun f hf => hold f (List.mem_cons_of_mem e hf)) hordered.tail,
      movedFrom_skip (hold e List.mem_cons_self) hordered hempty]
  | case3 e rest hempty =>
    exact movedFrom_normalizeFrom (hold e List.mem_cons_self) hordered

/-- A patch and its normal form move positions alike. -/
theorem moved?_normalize (p : Patch) (q : Pos) : p.normalize.moved? q = p.moved? q :=
  movedFrom_normalizeEdits (fun e _ => Pos.zero_le e.range.start) p.ordered

end Patch

end Retrace
