import Retrace.Proofs.SourceMap.Written

/-!
# Placed — where propagation writes its segments, and with which origins

A segment of the lines that are written is one of three kinds: an old segment at the place to which
its position has moved, an old segment carried over to where old text starts again, or a mark
without an origin where old text stops.

* `Propagation.Writes` — a segment with this origin is written at this position;
* `Propagation.Copied` — what copying a stretch of old text adds;
* `Propagation.Placed` — what the whole run adds;
* `Propagation.writes_carry` — nothing else is written;
* `Mappings.placed_applyPatch` — the same for the mappings of a patched text.
-/

namespace Retrace

theorem Mappings.line_singleton_nil (i : Nat) : Mappings.line [[]] i = [] := by
  cases i <;> rfl

/-- Consecutive lines, taken out of the mappings. -/
theorem Mappings.mem_line_of_mem_range {m : Mappings} {a n i : Nat} {s : Segment}
    (h : s ∈ Mappings.line ((List.range' a n).map m.line) i) : i < n ∧ s ∈ m.line (a + i) := by
  have hbound : i < ((List.range' a n).map m.line).length := Mappings.lt_length_of_mem_line h
  have hi : i < n := by simpa using hbound
  rw [Mappings.line, List.getD_eq_getElem?_getD, List.getElem?_eq_getElem hbound] at h
  simp only [List.getElem_map, List.getElem_range', Nat.one_mul, Option.getD_some] at h
  exact ⟨hi, h⟩

namespace Propagation

variable {m : Mappings} {w w' : Propagation} {line : List Segment} {start : Nat}
  {stop? : Option Nat} {done q : Pos} {last : Nat} {o : Option Origin} {s : Segment}

/-! ## What is written -/

/-- A segment with this origin is written at this position. -/
def Writes (w : Propagation) (q : Pos) (o : Option Origin) : Prop :=
  ⟨q.column, o⟩ ∈ w.lines.line q.line

/-- On the lines that are finished nothing changes while the last one is written. -/
theorem Writes.of_finished_eq (hfinished : w'.finished = w.finished) (h : w'.Writes q o) :
    w.Writes q o ∨ q.line = w.finished.length ∧ ⟨q.column, o⟩ ∈ w'.current := by
  unfold Writes at h ⊢
  rcases Nat.lt_trichotomy q.line w.finished.length with hlt | heq | hgt
  · left
    rwa [line_finished (hfinished ▸ hlt), hfinished, ← line_finished hlt] at h
  · right
    rw [heq, ← hfinished, line_current] at h
    exact ⟨heq, List.mem_reverse.1 h⟩
  · -- there is no such line
    have hlength : q.line < w'.lines.length := Mappings.lt_length_of_mem_line h
    rw [length_lines, hfinished] at hlength
    omega

theorem Writes.of_mem_current (hline : q.line = w.finished.length)
    (h : ⟨q.column, o⟩ ∈ w.current) : w.Writes q o := by
  unfold Writes
  rw [hline, line_current]
  exact List.mem_reverse.2 h

/-! ## Old text -/

/-- A part of a line adds the segment carried over, those that are kept, and the end mark. -/
theorem writes_copyPart (hsorted : Segment.Sorted line) (hroom : Room line w.column start stop?)
    (h : (w.copyPart line start stop?).Writes q o) :
    w.Writes q o ∨ (q = w.pos ∧ ∃ s ∈ line, s.column < start ∧ s.origin = o) ∨
      (∃ s ∈ line, start ≤ s.column ∧ (∀ stop ∈ stop?, s.column < stop) ∧
        q = ⟨w.finished.length, w.column + (s.column - start)⟩ ∧ s.origin = o) ∨
      ∃ stop ∈ stop?, q = ⟨w.finished.length, w.column + (stop - start)⟩ ∧ o = none := by
  rcases h.of_finished_eq copyPart_finished with hold | ⟨hline, hmem⟩
  · exact Or.inl hold
  have hq : ∀ {c : Nat} {o' : Option Origin}, (⟨q.column, o⟩ : Segment) = ⟨c, o'⟩ →
      q = ⟨w.finished.length, c⟩ ∧ o = o' := by
    intro c o' heq
    obtain ⟨hcolumn, horigin⟩ := Segment.mk.inj heq
    exact ⟨Pos.ext hline hcolumn, horigin⟩
  rcases mem_copyPart hmem with hopen | ⟨stop, hstop, hmark⟩
  · rcases mem_copyOpen hsorted hopen with hcurrent | ⟨s, hs, hlt, hmove⟩ | ⟨s, hs, hle, hlt, hmove⟩
    · exact Or.inl (Writes.of_mem_current hline hcurrent)
    · obtain ⟨hpos, horigin⟩ := hq hmove
      exact Or.inr (Or.inl ⟨hpos, s, hs, hlt, horigin.symm⟩)
    · obtain ⟨hpos, horigin⟩ := hq hmove
      rw [movedColumn_eq hle (hroom s hs hle hlt)] at hpos
      exact Or.inr (Or.inr (Or.inl ⟨s, hs, hle, hlt, hpos, horigin.symm⟩))
  · obtain ⟨hpos, horigin⟩ := hq hmark
    exact Or.inr (Or.inr (Or.inr ⟨stop, hstop, hpos, horigin⟩))

/-- What copying the old text from `done` up to an end adds, if `done` goes to `new`. -/
inductive Copied (m : Mappings) (done new : Pos) (last : Nat) (stop? : Option Nat) :
    Pos → Option Origin → Prop where
  /-- The segment that covers the start. -/
  | opened {i : Nat} {s : Segment} (hs : s ∈ m.line i) : Copied m done new last stop? new s.origin
  /-- A segment of the stretch. -/
  | kept {i : Nat} {s : Segment} (hs : s ∈ m.line i) (hle : done ≤ ⟨i, s.column⟩)
      (hbefore : Before ⟨i, s.column⟩ last stop?) :
      Copied m done new last stop? (Patch.shift done new ⟨i, s.column⟩) s.origin
  /-- The end mark. -/
  | closed {stop : Nat} (hstop : stop ∈ stop?) :
      Copied m done new last stop? (Patch.shift done new ⟨last, stop⟩) none

/-- The first line of a stretch and the whole lines below it. -/
theorem writes_copyLines (hsorted : m.Sorted) (hfits : Fits m w done last stop?)
    (hline : done.line < last) (h : (w.copyLines m done last).Writes q o) :
    w.Writes q o ∨ Copied m done w.pos last stop? q o := by
  have hfirst : (w.copyPart (m.line done.line) done.column none).lines.length
      = w.finished.length + 1 := by
    rw [length_lines, copyPart_finished]
  have hlines : ⟨q.column, o⟩ ∈ Mappings.line
      ((w.copyPart (m.line done.line) done.column none).lines
        ++ ((List.range' (done.line + 1) (last - (done.line + 1))).map m.line ++ [[]])) q.line := by
    rw [← List.append_assoc, ← lines_copyLines]
    exact h
  rw [Mappings.line_append, hfirst] at hlines
  split at hlines
  · -- on the first line
    have hpart : (w.copyPart (m.line done.line) done.column none).Writes q o := hlines
    rcases writes_copyPart (hsorted.line _) (hfits.room_open hline) hpart with
      hold | ⟨hq, s, hs, -, rfl⟩ | ⟨s, hs, hle, -, hq, rfl⟩ | ⟨stop, hstop, -⟩
    · exact Or.inl hold
    · rw [hq]
      exact Or.inr (.opened hs)
    · have hshift : q = Patch.shift done w.pos ⟨done.line, s.column⟩ := by
        rw [hq, Patch.shift, if_pos rfl]
        rfl
      rw [hshift]
      exact Or.inr (.kept hs (Or.inr ⟨rfl, hle⟩) (Or.inl hline))
    · cases hstop
  · rename_i hbelow
    rw [Mappings.line_append] at hlines
    split at hlines
    · -- on a whole line
      obtain ⟨hbound, hs⟩ := Mappings.mem_line_of_mem_range hlines
      have hshift : q = Patch.shift done w.pos
          ⟨done.line + 1 + (q.line - (w.finished.length + 1)), q.column⟩ := by
        rw [Patch.shift, if_neg (by simp only; omega)]
        ext
        · simp only [pos]
          omega
        · rfl
      rw [hshift]
      exact Or.inr (.kept hs (Or.inl (by simp only; omega)) (Or.inl (by simp only; omega)))
    · -- the last line is still empty
      rw [Mappings.line_singleton_nil] at hlines
      cases hlines

/-- A stretch of old text adds what it says. -/
theorem writes_copy (hsorted : m.Sorted) (hfits : Fits m w done last stop?)
    (hline : done.line ≤ last) (h : (w.copy m done last stop?).Writes q o) :
    w.Writes q o ∨ Copied m done w.pos last stop? q o := by
  rcases Nat.lt_or_eq_of_le hline with hlt | heq
  · rw [copy_of_line_ne (Nat.ne_of_lt hlt)] at h
    -- the last line starts at its own column 0
    have hshift : ∀ c, (⟨(w.copyLines m done last).finished.length,
        (w.copyLines m done last).column + (c - 0)⟩ : Pos) = Patch.shift done w.pos ⟨last, c⟩ := by
      intro c
      rw [length_copyLines hlt, Patch.shift, if_neg (Nat.ne_of_gt hlt)]
      simp [copyLines, pos]
    rcases writes_copyPart (hsorted.line _) (hfits.room_last hlt) h with
      hlines | ⟨-, s, -, hnone, -⟩ | ⟨s, hs, hle, hstop, hq, rfl⟩ | ⟨stop, hstop, hq, rfl⟩
    · exact writes_copyLines hsorted hfits hlt hlines
    · exact absurd hnone (Nat.not_lt_zero _)
    · rw [hq, hshift]
      exact Or.inr (.kept hs (Or.inl hlt) (Or.inr ⟨rfl, hstop⟩))
    · rw [hq, hshift]
      exact Or.inr (.closed hstop)
  · rw [copy_of_line_eq heq] at h
    have hshift : ∀ c, (⟨w.finished.length, w.column + (c - done.column)⟩ : Pos)
        = Patch.shift done w.pos ⟨last, c⟩ := by
      intro c
      rw [Patch.shift, if_pos heq.symm]
      rfl
    rcases writes_copyPart (hsorted.line _) (hfits.room_first heq) h with
      hold | ⟨hq, s, hs, -, rfl⟩ | ⟨s, hs, hle, hstop, hq, rfl⟩ | ⟨stop, hstop, hq, rfl⟩
    · exact Or.inl hold
    · rw [hq]
      exact Or.inr (.opened hs)
    · rw [hq, hshift]
      rw [heq] at hs
      exact Or.inr (.kept hs (Or.inr ⟨heq, hle⟩) (Or.inr ⟨rfl, hstop⟩))
    · rw [hq, hshift]
      exact Or.inr (.closed hstop)

/-! ## New text -/

/-- New text adds its mark. -/
theorem writes_insert {e : Extent} (h : (w.insert e).Writes q o) :
    w.Writes q o ∨ q = w.pos ∧ o = none := by
  have hpush : (w.push (Segment.unmapped w.column)).Writes q o →
      w.Writes q o ∨ q = w.pos ∧ o = none := by
    intro hpush
    rcases hpush.of_finished_eq (push_finished w _) with hold | ⟨hline, hmem⟩
    · exact Or.inl hold
    · rcases mem_push hmem with hmark | hcurrent
      · obtain ⟨hcolumn, horigin⟩ := Segment.mk.inj hmark
        exact Or.inr ⟨Pos.ext hline hcolumn, horigin⟩
      · exact Or.inl (Writes.of_mem_current hline hcurrent)
  -- line breaks add nothing
  have hbreak : ∀ n, (Nat.repeat newLine n (w.push (Segment.unmapped w.column))).Writes q o →
      (w.push (Segment.unmapped w.column)).Writes q o := by
    intro n hlines
    induction n with
    | zero => exact hlines
    | succ n ih =>
      refine ih ?_
      unfold Writes at hlines
      rw [Nat.repeat, lines_newLine, Mappings.line_append] at hlines
      split at hlines
      · exact hlines
      · rw [Mappings.line_singleton_nil] at hlines
        cases hlines
  unfold insert at h
  split at h
  · exact hpush h
  · exact hpush (hbreak e.lines h)

/-! ## All edits -/

/-- What a run over all edits adds, if `done` goes to `new`. -/
inductive Placed (m : Mappings) (done new : Pos) (edits : List Edit) :
    Pos → Option Origin → Prop where
  /-- A segment carried over to the place where old text starts again. -/
  | opened {i : Nat} {s : Segment} {q : Pos} (hs : s ∈ m.line i)
      (hq : q = new ∨ ∃ r ∈ Patch.newRangesFrom done new edits, q = r.stop) :
      Placed m done new edits q s.origin
  /-- A segment at the place to which its position has moved. -/
  | kept {i : Nat} {s : Segment} {q : Pos} (hs : s ∈ m.line i) (hle : done ≤ ⟨i, s.column⟩)
      (hmoved : Patch.movedFrom done new ⟨i, s.column⟩ edits = some q) :
      Placed m done new edits q s.origin
  /-- The mark where old text stops. -/
  | closed {r : Range} (hr : r ∈ Patch.newRangesFrom done new edits) :
      Placed m done new edits r.start none

section Carry

variable {new : Pos} {e : Edit} {edits : List Edit}

/-- The old text stops where the new text of the first edit starts. -/
theorem Placed.mark : Placed m done new (e :: edits) (Patch.shift done new e.range.start) none := by
  have hr : (Extent.ofText e.text.toList).rangeFrom (Patch.shift done new e.range.start)
      ∈ Patch.newRangesFrom done new (e :: edits) := List.mem_cons_self
  exact Placed.closed hr

/-- The stretch up to an edit. -/
theorem Copied.placed (h : Copied m done new e.range.start.line (some e.range.start.column) q o) :
    Placed m done new (e :: edits) q o := by
  cases h with
  | opened hs => exact .opened hs (Or.inl rfl)
  | @kept i s hs hle hbefore =>
    have hlt : (⟨i, s.column⟩ : Pos) < e.range.start := by
      rcases hbefore with hline | ⟨hline, hcolumn⟩
      · exact Or.inl hline
      · exact Or.inr ⟨hline, hcolumn _ rfl⟩
    refine .kept hs hle ?_
    rw [Patch.movedFrom, if_pos hlt]
  | closed hstop =>
    cases hstop
    exact .mark

/-- The last stretch. -/
theorem Copied.placed_rest (h : Copied m done new last none q o) : Placed m done new [] q o := by
  cases h with
  | opened hs => exact .opened hs (Or.inl rfl)
  | kept hs hle hbefore => exact .kept hs hle rfl
  | closed hstop => cases hstop

/-- What comes behind the first edit. -/
theorem Placed.cons (hforward : e.range.start ≤ e.range.stop)
    (hdone : done ≤ e.range.start)
    (h : Placed m e.range.stop (e.newStop (Patch.shift done new e.range.start)) edits q o) :
    Placed m done new (e :: edits) q o := by
  cases h with
  | opened hs hq =>
    refine .opened hs (Or.inr ?_)
    rcases hq with rfl | ⟨r, hr, rfl⟩
    · exact ⟨_, List.mem_cons_self, rfl⟩
    · exact ⟨r, List.mem_cons_of_mem _ hr, rfl⟩
  | kept hs hstop hmoved =>
    have hstart := Pos.le_trans hforward hstop
    refine .kept hs (Pos.le_trans hdone hstart) ?_
    rw [Patch.movedFrom, if_neg (Pos.not_lt.2 hstart), if_neg (Pos.not_lt.2 hstop)]
    exact hmoved
  | closed hr => exact .closed (List.mem_cons_of_mem _ hr)

/-- Writing the old text up to an edit. -/
theorem writes_fill (hsorted : m.Sorted) (hdone : done ≤ e.range.start)
    (hroomy : Roomy m done w.pos (e :: edits)) (h : (fill m w done e.range.start).Writes q o) :
    w.Writes q o ∨ Placed m done w.pos (e :: edits) q o := by
  unfold fill at h
  split at h
  · rcases writes_copy hsorted (fits_of_lt hroomy.gap) (Pos.line_le_of_le hdone) h with hold | hcopy
    · exact Or.inl hold
    · exact Or.inr hcopy.placed
  · exact Or.inl h

/-- A run over all edits adds nothing else. -/
theorem writes_carry (hsorted : m.Sorted) (hordered : Edit.Ordered edits)
    (hdone : ∀ e ∈ edits.head?, done ≤ e.range.start) (hroomy : Roomy m done w.pos edits)
    (h : (carry m w done edits).Writes q o) :
    w.Writes q o ∨ Placed m done w.pos edits q o := by
  induction edits generalizing w done with
  | nil =>
    rw [carry_nil] at h
    rcases writes_copy hsorted hroomy.rest (Nat.le_max_right _ _) h with hold | hcopy
    · exact Or.inl hold
    · exact Or.inr hcopy.placed_rest
  | cons e edits ih =>
    have hstart : done ≤ e.range.start := hdone e rfl
    have hpos := insert_fill_pos (m := m) (w := w) hstart
    have hroomy' := hroomy.tail hstart hordered.head
    rw [← hpos] at hroomy'
    rw [carry_cons] at h
    rcases ih hordered.tail hordered.next hroomy' h with hwritten | hlater
    · rcases writes_insert hwritten with hfill | ⟨hq, rfl⟩
      · exact writes_fill hsorted hstart hroomy hfill
      · -- the mark of the new text stands where that text starts
        rw [hq, fill_pos hstart]
        exact Or.inr .mark
    · rw [hpos] at hlater
      exact Or.inr (hlater.cons hordered.head hstart)

end Carry

end Propagation

/-- Every segment of the patched mappings is placed by the run over the normal form. -/
theorem Mappings.placed_applyPatch {m : Mappings} {p : Patch} (hsorted : m.Sorted)
    (hroomy : m.Roomy p) {i : Nat} {s : Segment} (hs : s ∈ (m.applyPatch p).line i) :
    Propagation.Placed m Pos.zero Pos.zero p.normalize.edits ⟨i, s.column⟩ s.origin := by
  rw [applyPatch_eq_carry] at hs
  have hplaced := Propagation.writes_carry (w := Propagation.start) (q := ⟨i, s.column⟩) hsorted
    p.normalize.ordered (fun e _ => Pos.zero_le e.range.start) hroomy.normalize hs
  rcases hplaced with hstart | hplaced
  · -- to start with there is one empty line
    have hempty : (⟨s.column, s.origin⟩ : Segment) ∈ Mappings.line [[]] i := hstart
    rw [Mappings.line_singleton_nil] at hempty
    cases hempty
  · exact hplaced

end Retrace
