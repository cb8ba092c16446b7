import Retrace.Proofs.SourceMap.Propagation

/-!
# Written — the segments of the lines that propagation writes

* `Propagation.Ordered` — the lines written are sorted, and none reaches past the column reached;
* `Propagation.Every` — every segment written has a property;
* `Mappings.sorted_applyPatch` — sorted lines stay sorted;
* `Mappings.applyPatch_forall` — segments that are written have a 32-bit column, and an origin of
  the old mappings if any.
-/

namespace Retrace.Propagation

variable {m : Mappings} {w : Propagation} {line : List Segment} {start : Nat} {stop? : Option Nat}
  {s t : Segment}

/-! ## Membership -/

theorem mem_push (h : t ∈ (w.push s).current) : t = s ∨ t ∈ w.current := by
  unfold push at h
  split at h
  · rename_i last rest hcurrent
    rw [hcurrent]
    split at h
    · rcases List.mem_cons.1 h with rfl | hrest
      · exact Or.inl rfl
      · exact Or.inr (List.mem_cons_of_mem _ hrest)
    · exact List.mem_cons.1 h
  · exact Or.inl (List.mem_singleton.1 h)

theorem mem_foldl_push {segments : List Segment} (h : t ∈ (segments.foldl push w).current) :
    t ∈ segments ∨ t ∈ w.current := by
  induction segments generalizing w with
  | nil => exact Or.inr h
  | cons s rest ih =>
    rcases ih h with hrest | hpush
    · exact Or.inl (List.mem_cons_of_mem s hrest)
    · rcases mem_push hpush with rfl | hcurrent
      · exact Or.inl List.mem_cons_self
      · exact Or.inr hcurrent

/-- A copied part has the segments of before, the one carried over and those that are kept. -/
theorem mem_copyOpen (hsorted : Segment.Sorted line)
    (h : t ∈ (w.copyOpen line start stop?).current) :
    t ∈ w.current ∨ (∃ s ∈ line, s.column < start ∧ t = s.moveTo w.column) ∨
      ∃ s ∈ line, start ≤ s.column ∧ (∀ stop ∈ stop?, s.column < stop) ∧
        t = s.moveTo (movedColumn w.column start s) := by
  unfold copyOpen at h
  rcases mem_foldl_push h with hkept | hopened
  · rcases List.mem_map.1 hkept with ⟨s, hs, rfl⟩
    rcases mem_kept hsorted hs with ⟨hmem, hle, hlt⟩
    exact Or.inr (Or.inr ⟨s, hmem, hle, hlt, rfl⟩)
  · cases hlast : (line.takeWhile fun s => decide (s.column < start)).getLast? with
    | none =>
      rw [hlast] at hopened
      exact Or.inl hopened
    | some s =>
      rw [hlast] at hopened
      rcases mem_push hopened with rfl | hcurrent
      · have hopen := List.mem_of_getLast? hlast
        have hmem := (List.takeWhile_sublist _).subset hopen
        exact Or.inr (Or.inl ⟨s, hmem, Segment.lt_of_mem_takeWhile hopen, rfl⟩)
      · exact Or.inl hcurrent

theorem mem_copyPart (h : t ∈ (w.copyPart line start stop?).current) :
    t ∈ (w.copyOpen line start stop?).current ∨
      ∃ stop ∈ stop?, t = Segment.unmapped (w.column + (stop - start)) := by
  cases stop? with
  | none => exact Or.inl h
  | some stop =>
    rw [copyPart_some] at h
    rcases mem_push h with rfl | hopen
    · exact Or.inr ⟨stop, rfl, rfl⟩
    · exact Or.inl hopen

/-! ## Order -/

theorem sorted_push (hsorted : Segment.Sorted w.current.reverse)
    (hle : ∀ t ∈ w.current, t.column ≤ s.column) : Segment.Sorted (w.push s).current.reverse := by
  unfold push
  split
  · rename_i last rest hcurrent
    rw [hcurrent] at hsorted hle
    have happend : ∀ front : List Segment, Segment.Sorted front.reverse →
        (∀ t ∈ front, t.column ≤ s.column) → Segment.Sorted (s :: front).reverse := by
      intro front hfront hcolumns
      rw [List.reverse_cons]
      refine List.pairwise_append.2 ⟨hfront, List.pairwise_singleton _ _, ?_⟩
      intro t ht u hu
      rw [List.mem_singleton.1 hu]
      exact hcolumns t (List.mem_reverse.1 ht)
    split
    -- a segment at the same column is replaced
    · refine happend rest ?_ fun t ht => hle t (List.mem_cons_of_mem last ht)
      refine hsorted.sublist ?_
      rw [List.reverse_cons]
      exact List.sublist_append_left _ _
    · exact happend (last :: rest) hsorted hle
  · exact List.pairwise_singleton _ _

theorem sorted_foldl_push {segments : List Segment} (hsorted : Segment.Sorted w.current.reverse)
    (hsegments : Segment.Sorted segments)
    (hle : ∀ t ∈ w.current, ∀ s ∈ segments, t.column ≤ s.column) :
    Segment.Sorted (segments.foldl push w).current.reverse := by
  induction segments generalizing w with
  | nil => exact hsorted
  | cons s rest ih =>
    rcases Segment.sorted_cons.1 hsegments with ⟨hfirst, hrest⟩
    refine ih (sorted_push hsorted fun t ht => hle t ht s List.mem_cons_self) hrest ?_
    intro t ht u hu
    rcases mem_push ht with rfl | hcurrent
    · exact hfirst u hu
    · exact hle t hcurrent u (List.mem_cons_of_mem s hu)

/-- The lines written are sorted, and the last one ends at the column reached or before. -/
structure Ordered (w : Propagation) : Prop where
  finished : ∀ line ∈ w.finished, Segment.Sorted line
  current : Segment.Sorted w.current.reverse
  reached : ∀ s ∈ w.current, s.column ≤ w.column

theorem sorted_copyOpen (hw : w.Ordered) (hsorted : Segment.Sorted line)
    (hroom : Room line w.column start stop?) :
    Segment.Sorted (w.copyOpen line start stop?).current.reverse := by
  have hopened : ∀ opened : Option Segment,
      Segment.Sorted ((opened.map fun s => s.moveTo w.column).elim w w.push).current.reverse ∧
        ∀ t ∈ ((opened.map fun s => s.moveTo w.column).elim w w.push).current,
          t.column ≤ w.column := by
    intro opened
    cases opened with
    | none => exact ⟨hw.current, hw.reached⟩
    | some s =>
      refine ⟨sorted_push hw.current hw.reached, ?_⟩
      intro t ht
      rcases mem_push ht with rfl | hcurrent
      · exact Nat.le_refl _
      · exact hw.reached t hcurrent
  -- the kept segments keep their distances, behind everything written before
  have hcolumn : ∀ s ∈ (line.dropWhile fun s => s.column < start).takeWhile fun s =>
      stop?.all fun stop => s.column < stop,
      start ≤ s.column ∧ movedColumn w.column start s = w.column + (s.column - start) := by
    intro s hs
    rcases mem_kept hsorted hs with ⟨hmem, hle, hlt⟩
    exact ⟨hle, movedColumn_eq hle (hroom s hmem hle hlt)⟩
  unfold copyOpen
  refine sorted_foldl_push (hopened _).1 ?_ ?_
  · have hkept := hsorted.sublist
      ((List.takeWhile_sublist fun s => stop?.all fun stop => decide (s.column < stop)).trans
        (List.dropWhile_sublist fun s => decide (s.column < start)))
    refine List.pairwise_map.2 (List.Pairwise.imp_of_mem ?_ hkept)
    intro s t hs ht hle
    simp only [Segment.moveTo, (hcolumn s hs).2, (hcolumn t ht).2]
    omega
  · intro t ht u hu
    rcases List.mem_map.1 hu with ⟨s, hs, rfl⟩
    refine Nat.le_trans ((hopened _).2 t ht) ?_
    simp only [Segment.moveTo, (hcolumn s hs).2]
    omega

/-- The segments of a part that has been copied end where the part ends. -/
theorem reached_copyOpen {stop : Nat} (hw : w.Ordered) (hsorted : Segment.Sorted line)
    (hroom : Room line w.column start (some stop)) :
    ∀ t ∈ (w.copyOpen line start (some stop)).current, t.column ≤ w.column + (stop - start) := by
  intro t ht
  rcases mem_copyOpen hsorted ht with hcurrent | ⟨s, -, -, rfl⟩ | ⟨s, hs, hle, hlt, rfl⟩
  · exact Nat.le_trans (hw.reached t hcurrent) (Nat.le_add_right _ _)
  · exact Nat.le_add_right _ _
  · have hstop := hlt stop rfl
    rw [Segment.moveTo, movedColumn_eq hle (hroom s hs hle hlt)]
    simp only
    omega

theorem ordered_copyPart {stop : Nat} (hw : w.Ordered) (hsorted : Segment.Sorted line)
    (hroom : Room line w.column start (some stop)) :
    (w.copyPart line start (some stop)).Ordered := by
  have hreached := reached_copyOpen hw hsorted hroom
  rw [copyPart_some]
  refine ⟨?_, ?_, ?_⟩
  · rw [push_finished]
    simpa using hw.finished
  · exact sorted_push (sorted_copyOpen hw hsorted hroom) hreached
  · intro t ht
    rw [push_column]
    rcases mem_push ht with rfl | hopen
    · exact Nat.le_refl _
    · exact hreached t hopen

/-- The lines are sorted, wherever the last one ends. -/
def SortedLines (w : Propagation) : Prop :=
  (∀ line ∈ w.finished, Segment.Sorted line) ∧ Segment.Sorted w.current.reverse

theorem Ordered.sortedLines (h : w.Ordered) : w.SortedLines := ⟨h.finished, h.current⟩

theorem SortedLines.sorted (h : w.SortedLines) : w.lines.Sorted := by
  intro line hline
  rw [lines, List.reverse_cons, List.mem_append, List.mem_reverse, List.mem_singleton] at hline
  rcases hline with hfinished | rfl
  · exact h.1 line hfinished
  · exact h.2

theorem sortedLines_copyPart (hw : w.Ordered) (hsorted : Segment.Sorted line)
    (hroom : Room line w.column start stop?) : (w.copyPart line start stop?).SortedLines := by
  cases stop? with
  | none =>
    refine ⟨?_, sorted_copyOpen hw hsorted hroom⟩
    rw [copyPart_finished]
    exact hw.finished
  | some stop => exact (ordered_copyPart hw hsorted hroom).sortedLines

variable {done : Pos} {last : Nat}

/-- Between two lines the writer stands in front of an empty one. -/
theorem ordered_copyLines (hw : w.Ordered) (hsorted : m.Sorted)
    (hroom : Room (m.line done.line) w.column done.column none) :
    (w.copyLines m done last).Ordered := by
  rcases sortedLines_copyPart hw (hsorted.line done.line) hroom with ⟨hfinished, hcurrent⟩
  refine ⟨?_, List.Pairwise.nil, fun s hs => by cases hs⟩
  intro line hline
  rcases List.mem_append.1 hline with hbetween | hbefore
  · rcases List.mem_map.1 (List.mem_reverse.1 hbetween) with ⟨i, -, rfl⟩
    exact hsorted.line i
  · rcases List.mem_cons.1 hbefore with rfl | hold
    · exact hcurrent
    · exact hfinished line hold

theorem sortedLines_copy (hw : w.Ordered) (hsorted : m.Sorted)
    (hfits : Fits m w done last stop?) (hline : done.line ≤ last) :
    (w.copy m done last stop?).SortedLines := by
  rcases Nat.lt_or_eq_of_le hline with hlt | heq
  · rw [copy_of_line_ne (Nat.ne_of_lt hlt)]
    exact sortedLines_copyPart (ordered_copyLines hw hsorted (hfits.room_open hlt))
      (hsorted.line last) (hfits.room_last hlt)
  · rw [copy_of_line_eq heq]
    exact sortedLines_copyPart hw (hsorted.line done.line) (hfits.room_first heq)

theorem ordered_copy {stop : Nat} (hw : w.Ordered) (hsorted : m.Sorted)
    (hfits : Fits m w done last (some stop)) (hline : done.line ≤ last) :
    (w.copy m done last (some stop)).Ordered := by
  rcases Nat.lt_or_eq_of_le hline with hlt | heq
  · rw [copy_of_line_ne (Nat.ne_of_lt hlt)]
    exact ordered_copyPart (ordered_copyLines hw hsorted (hfits.room_open hlt))
      (hsorted.line last) (hfits.room_last hlt)
  · rw [copy_of_line_eq heq]
    exact ordered_copyPart hw (hsorted.line done.line) (hfits.room_first heq)

theorem ordered_push_unmapped (hw : w.Ordered) :
    (w.push (Segment.unmapped w.column)).Ordered := by
  refine ⟨?_, sorted_push hw.current hw.reached, ?_⟩
  · rw [push_finished]
    exact hw.finished
  · intro t ht
    rw [push_column]
    rcases mem_push ht with rfl | hcurrent
    · exact Nat.le_refl _
    · exact hw.reached t hcurrent

theorem ordered_repeat_newLine (n : Nat) (hw : w.Ordered) : (Nat.repeat newLine n w).Ordered := by
  induction n with
  | zero => exact hw
  | succ n ih =>
    refine ⟨?_, List.Pairwise.nil, fun s hs => by cases hs⟩
    intro line hline
    rcases List.mem_cons.1 hline with rfl | hold
    · exact ih.current
    · exact ih.finished line hold

theorem current_repeat_newLine {n : Nat} (h : n ≠ 0) :
    (Nat.repeat newLine n w).current = [] := by
  cases n with
  | zero => exact absurd rfl h
  | succ n => rfl

theorem ordered_insert (hw : w.Ordered) (e : Extent) : (w.insert e).Ordered := by
  have hpush := ordered_push_unmapped hw
  by_cases h : e.lines = 0
  · simp only [insert, h, if_true]
    refine ⟨hpush.finished, hpush.current, ?_⟩
    intro t ht
    exact Nat.le_trans (hpush.reached t ht) (Nat.le_add_right _ _)
  · simp only [insert, h, if_false]
    have hlines := ordered_repeat_newLine e.lines hpush
    refine ⟨hlines.finished, hlines.current, ?_⟩
    intro t ht
    rw [current_repeat_newLine h] at ht
    cases ht

theorem ordered_fill {stop : Pos} (hw : w.Ordered) (hsorted : m.Sorted) (hle : done ≤ stop)
    (hfits : ∀ i, ∀ s ∈ m.line i, done ≤ ⟨i, s.column⟩ → ⟨i, s.column⟩ < stop →
      (Patch.shift done w.pos ⟨i, s.column⟩).column < 0x100000000) :
    (fill m w done stop).Ordered := by
  unfold fill
  split
  · exact ordered_copy hw hsorted (fits_of_lt hfits) (Pos.line_le_of_le hle)
  · exact hw

/-- All lines are sorted in the end. -/
theorem sortedLines_carry {edits : List Edit} (hw : w.Ordered) (hsorted : m.Sorted)
    (hordered : Edit.Ordered edits) (hdone : ∀ e ∈ edits.head?, done ≤ e.range.start)
    (hroomy : Roomy m done w.pos edits) : (carry m w done edits).SortedLines := by
  induction edits generalizing w done with
  | nil => exact sortedLines_copy hw hsorted hroomy.rest (Nat.le_max_right _ _)
  | cons e edits ih =>
    have hstart : done ≤ e.range.start := hdone e rfl
    rw [carry_cons]
    refine ih (ordered_insert (ordered_fill hw hsorted hstart hroomy.gap) _) hordered.tail ?_ ?_
    · exact hordered.next
    · rw [insert_fill_pos hstart]
      exact hroomy.tail hstart hordered.head

/-! ## Columns and origins -/

/-- Every segment written so far has the property. -/
def Every (P : Segment → Prop) (w : Propagation) : Prop :=
  (∀ line ∈ w.finished, ∀ s ∈ line, P s) ∧ ∀ s ∈ w.current, P s

theorem Every.lines {P : Segment → Prop} (h : w.Every P) : ∀ line ∈ w.lines, ∀ s ∈ line, P s := by
  intro line hline s hs
  rw [Propagation.lines, List.reverse_cons, List.mem_append, List.mem_reverse,
    List.mem_singleton] at hline
  rcases hline with hfinished | rfl
  · exact h.1 line hfinished s hs
  · exact h.2 s (List.mem_reverse.1 hs)

/-- A 32-bit column, and an origin with a property. -/
def Segment32 (R : Option Origin → Prop) (s : Segment) : Prop := s.column < 0x100000000 ∧ R s.origin

section Every

variable {R : Option Origin → Prop} (hnone : R none)

theorem movedColumn_lt (column start : Nat) (s : Segment) :
    movedColumn column start s < 0x100000000 := by
  unfold movedColumn
  omega

include hnone

theorem every_copyPart (hsorted : Segment.Sorted line) (hline : ∀ s ∈ line, R s.origin)
    (hw : w.Every (Segment32 R)) (hcolumn : w.column < 0x100000000)
    (hstop : ∀ stop ∈ stop?, w.column + (stop - start) < 0x100000000) :
    (w.copyPart line start stop?).Every (Segment32 R) := by
  refine ⟨?_, ?_⟩
  · rw [copyPart_finished]
    exact hw.1
  · intro t ht
    rcases mem_copyPart ht with hopen | ⟨stop, hmem, rfl⟩
    · rcases mem_copyOpen hsorted hopen with hcurrent | ⟨s, hs, -, rfl⟩ | ⟨s, hs, -, -, rfl⟩
      · exact hw.2 t hcurrent
      · exact ⟨hcolumn, hline s hs⟩
      · exact ⟨movedColumn_lt _ _ _, hline s hs⟩
    · exact ⟨hstop stop hmem, hnone⟩

variable (hm : ∀ i, ∀ s ∈ m.line i, Segment32 R s)
include hm

theorem every_copy (hsorted : m.Sorted) (hw : w.Every (Segment32 R))
    (hcolumn : w.column < 0x100000000) (hline : done.line ≤ last)
    (hstop : ∀ stop ∈ stop?, (Patch.shift done w.pos ⟨last, stop⟩).column < 0x100000000) :
    (w.copy m done last stop?).Every (Segment32 R) := by
  rcases Nat.lt_or_eq_of_le hline with hlt | heq
  · -- the rest of the first line, whole lines, and the front of the last one
    have hfirst : (w.copyPart (m.line done.line) done.column none).Every (Segment32 R) :=
      every_copyPart hnone (hsorted.line _) (fun s hs => (hm _ s hs).2) hw hcolumn
        fun stop hmem => by cases hmem
    have hlines : (w.copyLines m done last).Every (Segment32 R) := by
      refine ⟨?_, fun s hs => by cases hs⟩
      intro line hline s hs
      rcases List.mem_append.1 hline with hbetween | hbefore
      · rcases List.mem_map.1 (List.mem_reverse.1 hbetween) with ⟨i, -, rfl⟩
        exact hm i s hs
      · rcases List.mem_cons.1 hbefore with rfl | hold
        · exact hfirst.2 s (List.mem_reverse.1 hs)
        · exact hfirst.1 line hold s hs
    rw [copy_of_line_ne (Nat.ne_of_lt hlt)]
    refine every_copyPart hnone (hsorted.line _) (fun s hs => (hm _ s hs).2) hlines
      (by decide : 0 < 0x100000000) ?_
    intro stop hmem
    have hcolumn' := hstop stop hmem
    rw [Patch.shift, if_neg (Nat.ne_of_gt hlt)] at hcolumn'
    simpa [copyLines] using hcolumn'
  · rw [copy_of_line_eq heq]
    refine every_copyPart hnone (hsorted.line _) (fun s hs => (hm _ s hs).2) hw hcolumn ?_
    intro stop hmem
    have hcolumn' := hstop stop hmem
    rw [Patch.shift, if_pos heq.symm] at hcolumn'
    exact hcolumn'

omit hm in
theorem every_insert (hw : w.Every (Segment32 R)) (hcolumn : w.column < 0x100000000) (e : Extent) :
    (w.insert e).Every (Segment32 R) := by
  have hpush : (w.push (Segment.unmapped w.column)).Every (Segment32 R) := by
    refine ⟨?_, ?_⟩
    · rw [push_finished]
      exact hw.1
    · intro t ht
      rcases mem_push ht with rfl | hcurrent
      · exact ⟨hcolumn, hnone⟩
      · exact hw.2 t hcurrent
  -- a line break takes the current line to the finished ones, and adds nothing
  have hlines : ∀ n, (Nat.repeat newLine n
      (w.push (Segment.unmapped w.column))).Every (Segment32 R) := by
    intro n
    induction n with
    | zero => exact hpush
    | succ n ih =>
      refine ⟨?_, fun s hs => by cases hs⟩
      intro line hline s hs
      rcases List.mem_cons.1 hline with rfl | hold
      · exact ih.2 s (List.mem_reverse.1 hs)
      · exact ih.1 line hold s hs
  by_cases h : e.lines = 0
  · simp only [insert, h, if_true]
    exact hpush
  · simp only [insert, h, if_false]
    exact hlines e.lines

/-- Every segment in the end has a 32-bit column and an origin of the old mappings, if the new text
stands within the range of columns. -/
theorem every_carry {edits : List Edit} (hsorted : m.Sorted) (hordered : Edit.Ordered edits)
    (hdone : ∀ e ∈ edits.head?, done ≤ e.range.start) (hw : w.Every (Segment32 R))
    (hcolumn : w.column < 0x100000000)
    (hranges : ∀ r ∈ Patch.newRangesFrom done w.pos edits,
      r.start.column < 0x100000000 ∧ r.stop.column < 0x100000000) :
    (carry m w done edits).Every (Segment32 R) := by
  induction edits generalizing w done with
  | nil =>
    exact every_copy hnone hm hsorted hw hcolumn (Nat.le_max_right _ _) fun _ hmem => by cases hmem
  | cons e edits ih =>
    -- the new range of the edit says which columns its start and its stop go to
    have hstart : done ≤ e.range.start := hdone e rfl
    rcases hranges _ List.mem_cons_self with ⟨hnewStart, hnewStop⟩
    have hfill : (fill m w done e.range.start).Every (Segment32 R) := by
      unfold fill
      split
      · refine every_copy hnone hm hsorted hw hcolumn (Pos.line_le_of_le hstart) ?_
        intro stop hmem
        cases hmem
        exact hnewStart
      · exact hw
    have hfillColumn : (fill m w done e.range.start).column < 0x100000000 := by
      have hcolumn' : (fill m w done e.range.start).column
          = (Patch.shift done w.pos e.range.start).column := congrArg Pos.column (fill_pos hstart)
      rw [hcolumn']
      exact hnewStart
    have hpos := insert_fill_pos (m := m) (w := w) (e := e) hstart
    rw [carry_cons]
    refine ih hordered.tail ?_ (every_insert hnone hfill hfillColumn _) ?_ ?_
    · exact hordered.next
    · exact Nat.lt_of_le_of_lt (Nat.le_of_eq (congrArg Pos.column hpos)) hnewStop
    · rw [hpos]
      exact fun r hr => hranges r (List.mem_cons_of_mem _ hr)

end Every

end Retrace.Propagation

/-! ## Whole patches -/

namespace Retrace.Mappings

variable {m : Mappings} {p : Patch}

theorem ordered_start : Propagation.start.Ordered :=
  ⟨fun line hline => (by cases hline), List.Pairwise.nil, fun s hs => (by cases hs)⟩

/-- Sorted lines stay sorted. -/
theorem sorted_applyPatch (hsorted : m.Sorted) (hroomy : m.Roomy p) : (m.applyPatch p).Sorted := by
  rw [applyPatch_eq_carry]
  exact (Propagation.sortedLines_carry ordered_start hsorted p.normalize.ordered
    (fun e _ => Pos.zero_le e.range.start) hroomy.normalize).sorted

/-- Segments that are written have a 32-bit column, and an origin of the old mappings or none. -/
theorem applyPatch_forall {R : Option Origin → Prop} (hnone : R none) (hsorted : m.Sorted)
    (hm : ∀ line ∈ m, ∀ s ∈ line, s.column < 0x100000000 ∧ R s.origin)
    (hranges : ∀ r ∈ p.normalize.newRanges,
      r.start.column < 0x100000000 ∧ r.stop.column < 0x100000000) :
    ∀ line ∈ m.applyPatch p, ∀ s ∈ line, s.column < 0x100000000 ∧ R s.origin := by
  have hlines : ∀ i, ∀ s ∈ m.line i, Propagation.Segment32 R s := by
    intro i s hs
    rcases mem_of_mem_line hs with ⟨line, hline, hmem⟩
    exact hm line hline s hmem
  have hstart : Propagation.start.Every (Propagation.Segment32 R) :=
    ⟨fun line hline => (by cases hline), fun s hs => (by cases hs)⟩
  rw [applyPatch_eq_carry]
  exact (Propagation.every_carry hnone hlines hsorted p.normalize.ordered
    (fun e _ => Pos.zero_le e.range.start) hstart (by decide) hranges).lines

end Retrace.Mappings
