import Retrace.Proofs.SourceMap.Cover

/-!
# Propagation — what carrying mappings through a patch does to each position

Each operation of the writer is described by three facts: what was written before stays as it is,
what is written now covers the new places of the old positions, and nothing covers what is to come.

* `Propagation.coverAt_copyPart`, `Propagation.coverAt_copy` — old text keeps what covers it;
* `Propagation.coverAt_insert` — new text is covered by nothing;
* `Propagation.coverAt_carry` — the run over all edits, by induction on them;
* `Mappings.coverAt_applyPatch` — the same for the mappings of a patched text.

Columns are 32-bit numbers that wrap.  Where a statement needs that none does, it says so for the
segments of the old text that the operation moves.
-/

namespace Retrace.Propagation

variable {m : Mappings} {w : Propagation} {line : List Segment} {start : Nat} {stop? : Option Nat}

/-! ## Parts of a line -/

/-- The segments of a part of a line, written without an end mark. -/
def copyOpen (w : Propagation) (line : List Segment) (start : Nat) (stop? : Option Nat) :
    Propagation :=
  let opened := (line.takeWhile fun s => s.column < start).getLast?
  let kept := (line.dropWhile fun s => s.column < start).takeWhile fun s =>
    stop?.all fun stop => s.column < stop
  let w₁ := (opened.map fun s => s.moveTo w.column).elim w w.push
  (kept.map fun s => s.moveTo (movedColumn w.column start s)).foldl push w₁

/-- No segment between `start` and the end of the part leaves the range of columns when `start` goes
to `column`. -/
def Room (line : List Segment) (column start : Nat) (stop? : Option Nat) : Prop :=
  ∀ s ∈ line, start ≤ s.column → (∀ stop ∈ stop?, s.column < stop) →
    column + (s.column - start) < 0x100000000

theorem movedColumn_eq {column : Nat} {s : Segment} (hstart : start ≤ s.column)
    (hroom : column + (s.column - start) < 0x100000000) :
    movedColumn column start s = column + (s.column - start) := by
  unfold movedColumn
  omega

@[simp] theorem copyOpen_finished : (w.copyOpen line start stop?).finished = w.finished := by
  unfold copyOpen
  cases (line.takeWhile fun s => decide (s.column < start)).getLast? <;> simp

@[simp] theorem copyOpen_column : (w.copyOpen line start stop?).column = w.column := by
  unfold copyOpen
  cases (line.takeWhile fun s => decide (s.column < start)).getLast? <;> simp

theorem copyPart_some {stop : Nat} :
    w.copyPart line start (some stop)
      = ({ w.copyOpen line start (some stop) with column := w.column + (stop - start) }).push
          (Segment.unmapped (w.column + (stop - start))) := by
  let w' := w.copyOpen line start (some stop)
  have hparts : w.copyPart line start (some stop)
      = ({ w' with column := w'.column + (stop - start) }).push
          (Segment.unmapped (w'.column + (stop - start))) := rfl
  have hcolumn : w'.column = w.column := copyOpen_column
  rw [hparts, hcolumn]

/-- The segments that are kept are those of the part. -/
theorem mem_kept {s : Segment} (hsorted : Segment.Sorted line)
    (hs : s ∈ (line.dropWhile fun s => s.column < start).takeWhile fun s =>
      stop?.all fun stop => s.column < stop) :
    s ∈ line ∧ start ≤ s.column ∧ ∀ stop ∈ stop?, s.column < stop := by
  have hdrop := (List.takeWhile_sublist _).subset hs
  refine ⟨(List.dropWhile_sublist _).subset hdrop, Segment.le_of_mem_dropWhile hsorted hdrop, ?_⟩
  intro stop hstop
  rw [Option.mem_def] at hstop
  subst hstop
  exact Segment.lt_of_mem_takeWhile hs

/-- What lies behind the part says nothing about it. -/
theorem cover_takeWhile_stop {before : Option Origin} {c : Nat} (hsorted : Segment.Sorted line)
    (hc : ∀ stop ∈ stop?, c < stop) :
    Segment.cover before (line.takeWhile fun s => stop?.all fun stop => s.column < stop) c
      = Segment.cover before line c := by
  cases stop? with
  | none =>
    exact congrArg (Segment.cover before · c) (List.takeWhile_eq_self_iff.2 fun _ _ => rfl)
  | some stop =>
    simp only [Option.all_some]
    conv => rhs; rw [← Segment.append_takeWhile_dropWhile line stop, Segment.cover_append]
    rw [Segment.cover_of_forall_lt fun s hs =>
      Nat.lt_of_lt_of_le (hc stop rfl) (Segment.le_of_mem_dropWhile hsorted hs)]

/-- The segment that covers the start of the part, if there is one, goes on the line that is being
written. -/
theorem opened_finished (opened : Option Segment) :
    ((opened.map fun s => s.moveTo w.column).elim w w.push).finished = w.finished := by
  cases opened with
  | none => rfl
  | some s => exact push_finished w _

/-- In front of the column reached nothing changes. -/
theorem coverAt_copyOpen_before {c : Nat} (hsorted : Segment.Sorted line)
    (hroom : Room line w.column start stop?) (hc : c < w.column) :
    (w.copyOpen line start stop?).coverAt ⟨w.finished.length, c⟩
      = w.coverAt ⟨w.finished.length, c⟩ := by
  have hopened : ∀ opened : Option Segment,
      ((opened.map fun s => s.moveTo w.column).elim w w.push).coverAt ⟨w.finished.length, c⟩
          = w.coverAt ⟨w.finished.length, c⟩ := by
    intro opened
    cases opened with
    | none => rfl
    | some s =>
      refine coverAt_push.trans (if_neg fun h => ?_)
      exact absurd h.2 (Nat.not_le.2 hc)
  unfold copyOpen
  simp only
  rw [← opened_finished, coverAt_foldl_push, opened_finished, Segment.cover_of_forall_lt, hopened]
  -- the segments that are kept go where the start of the part goes, or further
  intro s' hs'
  rcases List.mem_map.1 hs' with ⟨s, hs, rfl⟩
  rcases mem_kept hsorted hs with ⟨hmem, hle, hlt⟩
  have hmoved := movedColumn_eq hle (hroom s hmem hle hlt)
  simp only [Segment.moveTo, hmoved]
  omega

/-- The columns of the part keep what covers them. -/
theorem coverAt_copyOpen_within {c : Nat} (hsorted : Segment.Sorted line)
    (hroom : Room line w.column start stop?) (hblank : w.Blank) (hstart : start ≤ c)
    (hstop : ∀ stop ∈ stop?, c < stop) :
    (w.copyOpen line start stop?).coverAt ⟨w.finished.length, w.column + (c - start)⟩
      = Segment.cover none line c := by
  have hpos : w.pos ≤ ⟨w.finished.length, w.column + (c - start)⟩ :=
    Or.inr ⟨rfl, Nat.le_add_right _ _⟩
  have hopened : ∀ opened : Option Segment,
      ((opened.map fun s => s.moveTo w.column).elim w w.push).coverAt
          ⟨w.finished.length, w.column + (c - start)⟩
        = (opened.map Segment.origin).getD none := by
    intro opened
    cases opened with
    | none => exact hblank _ hpos
    | some s => exact coverAt_push.trans (if_pos ⟨rfl, Nat.le_add_right _ _⟩)
  have hdrop : Segment.Sorted (line.dropWhile fun s => s.column < start) :=
    hsorted.sublist (List.dropWhile_sublist _)
  unfold copyOpen
  simp only
  rw [← opened_finished, coverAt_foldl_push, opened_finished, hopened, Segment.cover_map_moveTo,
    cover_takeWhile_stop hdrop hstop]
  -- what was in front of the part covers it by its last segment only
  · conv => rhs; rw [← Segment.append_takeWhile_dropWhile line start, Segment.cover_append]
    rw [Segment.cover_of_forall_le fun s hs =>
      Nat.le_trans (Nat.le_of_lt (Segment.lt_of_mem_takeWhile hs)) hstart]
  · intro s hs
    rcases mem_kept hsorted hs with ⟨hmem, hle, hlt⟩
    rw [movedColumn_eq hle (hroom s hmem hle hlt)]
    omega

/-! ### With the end mark -/

@[simp] theorem copyPart_finished : (w.copyPart line start stop?).finished = w.finished := by
  cases stop? with
  | none => exact copyOpen_finished
  | some stop => rw [copyPart_some, push_finished, copyOpen_finished]

theorem copyPart_pos {stop : Nat} :
    (w.copyPart line start (some stop)).pos = ⟨w.finished.length, w.column + (stop - start)⟩ := by
  rw [copyPart_some, push_pos, pos, copyOpen_finished]

/-- The end mark leaves the part itself alone. -/
theorem coverAt_copyPart_eq_copyOpen {c : Nat}
    (hc : ∀ stop ∈ stop?, c < w.column + (stop - start)) :
    (w.copyPart line start stop?).coverAt ⟨w.finished.length, c⟩
      = (w.copyOpen line start stop?).coverAt ⟨w.finished.length, c⟩ := by
  cases stop? with
  | none => rfl
  | some stop =>
    have hlt := hc stop rfl
    rw [copyPart_some, coverAt_push, if_neg, coverAt_with_column]
    intro h
    exact absurd h.2 (Nat.not_le.2 hlt)

/-- Copying a part of a line changes nothing in front of it. -/
theorem coverAt_copyPart_before {q : Pos} (hsorted : Segment.Sorted line)
    (hroom : Room line w.column start stop?) (hq : q < w.pos) :
    (w.copyPart line start stop?).coverAt q = w.coverAt q := by
  rcases q with ⟨l, c⟩
  rw [Pos.lt_iff] at hq
  simp only [pos] at hq
  by_cases hline : l = w.finished.length
  · -- on the line being written, in front of the column reached
    subst hline
    have hc : c < w.column := by omega
    rw [coverAt_copyPart_eq_copyOpen, coverAt_copyOpen_before hsorted hroom hc]
    intro stop _
    omega
  · exact coverAt_congr copyPart_finished hline

/-- A copied part of a line is covered as it was. -/
theorem coverAt_copyPart {c : Nat} (hsorted : Segment.Sorted line)
    (hroom : Room line w.column start stop?) (hblank : w.Blank) (hstart : start ≤ c)
    (hstop : ∀ stop ∈ stop?, c < stop) :
    (w.copyPart line start stop?).coverAt ⟨w.finished.length, w.column + (c - start)⟩
      = Segment.cover none line c := by
  rw [coverAt_copyPart_eq_copyOpen, coverAt_copyOpen_within hsorted hroom hblank hstart hstop]
  intro stop hmem
  have := hstop stop hmem
  omega

/-! ## Stretches of old text -/

variable {done : Pos} {last : Nat}

/-- The writer after the first line of a stretch and the whole lines below it. -/
def copyLines (w : Propagation) (m : Mappings) (start : Pos) (line : Nat) : Propagation :=
  let w₁ := w.copyPart (m.line start.line) start.column none
  let between := (List.range' (start.line + 1) (line - (start.line + 1))).map m.line
  ⟨between.reverse ++ (w₁.current.reverse :: w₁.finished), [], 0⟩

theorem copy_of_line_eq (h : done.line = last) :
    w.copy m done last stop? = w.copyPart (m.line done.line) done.column stop? := if_pos h

theorem copy_of_line_ne (h : done.line ≠ last) :
    w.copy m done last stop? = (w.copyLines m done last).copyPart (m.line last) 0 stop? := if_neg h

/-- The position comes before the end of the stretch. -/
def Before (q : Pos) (last : Nat) (stop? : Option Nat) : Prop :=
  q.line < last ∨ (q.line = last ∧ ∀ stop ∈ stop?, q.column < stop)

/-- No segment of a stretch of old text leaves the range of columns. -/
def Fits (m : Mappings) (w : Propagation) (done : Pos) (last : Nat) (stop? : Option Nat) : Prop :=
  ∀ i, ∀ s ∈ m.line i, done ≤ ⟨i, s.column⟩ → Before ⟨i, s.column⟩ last stop? →
    (Patch.shift done w.pos ⟨i, s.column⟩).column < 0x100000000

/-- The part of the first line has room. -/
theorem Fits.room_first (hfits : Fits m w done last stop?) (hline : done.line = last) :
    Room (m.line done.line) w.column done.column stop? := by
  intro s hs hstart hstop
  have := hfits done.line s hs (Or.inr ⟨rfl, hstart⟩) (Or.inr ⟨hline, hstop⟩)
  simpa [Patch.shift, pos] using this

theorem Fits.room_open (hfits : Fits m w done last stop?) (hline : done.line < last) :
    Room (m.line done.line) w.column done.column none := by
  intro s hs hstart _
  have := hfits done.line s hs (Or.inr ⟨rfl, hstart⟩) (Or.inl hline)
  simpa [Patch.shift, pos] using this

theorem Fits.room_last (hfits : Fits m w done last stop?) (hline : done.line < last) :
    Room (m.line last) 0 0 stop? := by
  intro s hs _ hstop
  have := hfits last s hs (Or.inl hline) (Or.inr ⟨rfl, hstop⟩)
  simpa [Patch.shift, Nat.ne_of_gt hline] using this

theorem lines_copyLines :
    (w.copyLines m done last).lines
      = ((w.copyPart (m.line done.line) done.column none).lines
        ++ (List.range' (done.line + 1) (last - (done.line + 1))).map m.line) ++ [[]] := by
  simp [copyLines, lines]

theorem length_copyLines (hline : done.line < last) :
    (w.copyLines m done last).finished.length = last + w.finished.length - done.line := by
  simp only [copyLines, List.length_append, List.length_reverse, List.length_map,
    List.length_range', List.length_cons, copyPart_finished]
  omega

/-- Up to the end of its first line a stretch is copied as a part of that line. -/
theorem coverAt_copyLines_first {q : Pos} (hq : q.line ≤ w.finished.length) :
    (w.copyLines m done last).coverAt q
      = (w.copyPart (m.line done.line) done.column none).coverAt q := by
  have hlt : q.line < (w.copyPart (m.line done.line) done.column none).lines.length := by
    rw [length_lines, copyPart_finished]
    omega
  rw [coverAt, lines_copyLines, Mappings.coverAt_append_nil, Mappings.coverAt_append, if_pos hlt]
  rfl

/-- Whole lines are copied as they are. -/
theorem coverAt_copyLines_between {q : Pos} (hfirst : done.line < q.line) (hlast : q.line < last) :
    (w.copyLines m done last).coverAt ⟨q.line + w.finished.length - done.line, q.column⟩
      = m.coverAt q := by
  have hlength : (w.copyPart (m.line done.line) done.column none).lines.length
      = w.finished.length + 1 := by
    rw [length_lines, copyPart_finished]
  -- the line is among those after the first, at the place it has after `done` in the old mappings
  have hindex : q.line + w.finished.length - done.line - (w.finished.length + 1)
      = q.line - (done.line + 1) := by omega
  have hline : Mappings.line
        ((List.range' (done.line + 1) (last - (done.line + 1))).map m.line)
        (q.line - (done.line + 1))
      = m.line q.line := by
    have hbound : q.line - (done.line + 1)
        < ((List.range' (done.line + 1) (last - (done.line + 1))).map m.line).length := by
      simp
      omega
    rw [Mappings.line, List.getD_eq_getElem?_getD, List.getElem?_eq_getElem hbound]
    simp only [List.getElem_map, List.getElem_range', Option.getD_some]
    congr 1
    omega
  have hbelow : ¬ q.line + w.finished.length - done.line < w.finished.length + 1 := by omega
  rw [coverAt, lines_copyLines, Mappings.coverAt_append_nil, Mappings.coverAt_append, hlength,
    if_neg hbelow, Mappings.coverAt, hindex, hline]
  rfl

/-- Copying a stretch changes nothing in front of it. -/
theorem coverAt_copy_before {q : Pos} (hsorted : m.Sorted) (hfits : Fits m w done last stop?)
    (hline : done.line ≤ last) (hq : q < w.pos) :
    (w.copy m done last stop?).coverAt q = w.coverAt q := by
  rcases Nat.lt_or_eq_of_le hline with hlt | heq
  · have hqline : q.line ≤ w.finished.length := Pos.line_le_of_le (Pos.le_of_lt hq)
    have hother : q.line ≠ (w.copyLines m done last).finished.length := by
      rw [length_copyLines hlt]
      omega
    rw [copy_of_line_ne (Nat.ne_of_lt hlt), coverAt_congr copyPart_finished hother,
      coverAt_copyLines_first hqline,
      coverAt_copyPart_before (hsorted.line _) (hfits.room_open hlt) hq]
  · rw [copy_of_line_eq heq]
    exact coverAt_copyPart_before (hsorted.line _) (hfits.room_first heq) hq

/-- A copied stretch is covered as it was. -/
theorem coverAt_copy {q : Pos} (hsorted : m.Sorted) (hfits : Fits m w done last stop?)
    (hblank : w.Blank) (hdone : done ≤ q) (hbefore : Before q last stop?) :
    (w.copy m done last stop?).coverAt (Patch.shift done w.pos q) = m.coverAt q := by
  rw [Pos.le_iff] at hdone
  by_cases hone : done.line = last
  · -- the stretch lies on one line
    have hqline : q.line = done.line := by
      simp only [Before] at hbefore
      omega
    have hcolumn : done.column ≤ q.column := by omega
    have hstop : ∀ stop ∈ stop?, q.column < stop := by
      rcases hbefore with hlt | ⟨-, hstop⟩
      · omega
      · exact hstop
    rw [copy_of_line_eq hone, Patch.shift, if_pos hqline]
    refine (coverAt_copyPart (hsorted.line _) (hfits.room_first hone) hblank hcolumn hstop).trans ?_
    rw [Mappings.coverAt, hqline]
  · have hlast : done.line < last := by
      simp only [Before] at hbefore
      omega
    rw [copy_of_line_ne hone]
    by_cases hfirst : q.line = done.line
    · -- on the first line of several
      have hcolumn : done.column ≤ q.column := by omega
      rw [Patch.shift, if_pos hfirst]
      rw [coverAt_congr copyPart_finished, coverAt_copyLines_first (Nat.le_refl _)]
      · refine (coverAt_copyPart (hsorted.line _) (hfits.room_open hlast) hblank hcolumn
          ?_).trans ?_
        · intro stop hstop
          cases hstop
        · rw [Mappings.coverAt, hfirst]
      · rw [length_copyLines hlast]
        simp only [pos]
        omega
    · rw [Patch.shift, if_neg hfirst]
      rcases hbefore with hmiddle | ⟨hqlast, hstop⟩
      · -- on a line between
        rw [coverAt_congr copyPart_finished]
        · exact coverAt_copyLines_between (by omega) hmiddle
        · rw [length_copyLines hlast]
          simp only [pos]
          omega
      · -- on the last line
        have hcopied := coverAt_copyPart (w := w.copyLines m done last) (c := q.column)
          (hsorted.line last) (hfits.room_last hlast) (blank_of_current_eq_nil rfl)
          (Nat.zero_le _) hstop
        rw [length_copyLines hlast] at hcopied
        simp only [copyLines, Nat.sub_zero, Nat.zero_add] at hcopied
        rw [Mappings.coverAt, hqlast, ← hcopied]
        rfl

/-- Where a stretch with an end mark ends. -/
theorem copy_pos {stop : Nat} (hdone : done ≤ ⟨last, stop⟩) :
    (w.copy m done last (some stop)).pos = Patch.shift done w.pos ⟨last, stop⟩ := by
  by_cases hone : done.line = last
  · rw [copy_of_line_eq hone, copyPart_pos, Patch.shift, if_pos hone.symm]
    rfl
  · have hle : done.line ≤ last := Pos.line_le_of_le hdone
    have hlast : done.line < last := by omega
    rw [copy_of_line_ne hone, copyPart_pos, length_copyLines hlast, Patch.shift,
      if_neg (Ne.symm hone)]
    simp [copyLines, pos]

theorem copy_finished_length (hline : done.line ≤ last) :
    (w.copy m done last stop?).finished.length = last + w.finished.length - done.line := by
  rcases Nat.lt_or_eq_of_le hline with hlt | heq
  · rw [copy_of_line_ne (Nat.ne_of_lt hlt), copyPart_finished, length_copyLines hlt]
  · rw [copy_of_line_eq heq, copyPart_finished]
    omega

/-! ## New text -/

theorem repeat_newLine_finished (n : Nat) (w : Propagation) :
    (Nat.repeat newLine n w).finished.length = w.finished.length + n := by
  induction n with
  | zero => rfl
  | succ n ih =>
    rw [Nat.repeat, newLine, List.length_cons, ih]
    rfl

theorem coverAt_repeat_newLine (n : Nat) (w : Propagation) (q : Pos) :
    (Nat.repeat newLine n w).coverAt q = w.coverAt q := by
  induction n with
  | zero => rfl
  | succ n ih => rw [Nat.repeat, coverAt_newLine, ih]

theorem insert_pos (w : Propagation) (e : Extent) : (w.insert e).pos = e.endFrom w.pos := by
  unfold insert
  by_cases h : e.lines = 0
  · simp [h, Extent.endFrom, pos]
  · simp [h, Extent.endFrom, pos, repeat_newLine_finished]

/-- New text is covered by nothing, and changes nothing in front of it. -/
theorem coverAt_insert (w : Propagation) (e : Extent) (q : Pos) :
    (w.insert e).coverAt q = (w.push (Segment.unmapped w.column)).coverAt q := by
  by_cases h : e.lines = 0
  · simp only [insert, h, if_true]
    rfl
  · simp only [insert, h, if_false]
    exact coverAt_repeat_newLine _ _ _

theorem coverAt_insert_before (e : Extent) {q : Pos} (hq : q < w.pos) :
    (w.insert e).coverAt q = w.coverAt q := by
  rw [coverAt_insert, coverAt_push, if_neg]
  rintro ⟨hline, hcolumn⟩
  rw [Pos.lt_iff] at hq
  simp only [pos, Segment.unmapped] at hq hcolumn
  omega

theorem coverAt_insert_within (e : Extent) {q : Pos} (hq : w.pos ≤ q) :
    (w.insert e).coverAt q = none := by
  rw [coverAt_insert]
  exact blank_push_unmapped w q (by rw [push_pos]; exact hq)

theorem blank_insert (w : Propagation) (e : Extent) : (w.insert e).Blank := by
  intro q hq
  rw [insert_pos] at hq
  exact coverAt_insert_within e (Pos.le_trans (Extent.le_endFrom e w.pos) hq)

/-! ## One edit -/

/-- Writes the old text up to an edit, if there is any. -/
def fill (m : Mappings) (w : Propagation) (done stop : Pos) : Propagation :=
  if done < stop then w.copy m done stop.line (some stop.column) else w

section Fill

variable {stop : Pos} {q : Pos}

theorem fits_of_lt (hfits : ∀ i, ∀ s ∈ m.line i, done ≤ ⟨i, s.column⟩ → ⟨i, s.column⟩ < stop →
      (Patch.shift done w.pos ⟨i, s.column⟩).column < 0x100000000) :
    Fits m w done stop.line (some stop.column) := by
  intro i s hs hle hbefore
  refine hfits i s hs hle ?_
  rcases hbefore with hlt | ⟨heq, hlt⟩
  · exact Or.inl hlt
  · exact Or.inr ⟨heq, hlt _ rfl⟩

theorem fill_pos (hle : done ≤ stop) : (fill m w done stop).pos = Patch.shift done w.pos stop := by
  unfold fill
  split
  · exact copy_pos hle
  · rename_i hnot
    rw [Pos.le_antisymm hle (Pos.not_lt.1 hnot), Patch.shift_self]

variable (hsorted : m.Sorted)
  (hfits : ∀ i, ∀ s ∈ m.line i, done ≤ ⟨i, s.column⟩ → ⟨i, s.column⟩ < stop →
    (Patch.shift done w.pos ⟨i, s.column⟩).column < 0x100000000)

include hsorted hfits

theorem coverAt_fill_before (hle : done ≤ stop) (hq : q < w.pos) :
    (fill m w done stop).coverAt q = w.coverAt q := by
  unfold fill
  split
  · exact coverAt_copy_before hsorted (fits_of_lt hfits) (Pos.line_le_of_le hle) hq
  · rfl

theorem coverAt_fill (hblank : w.Blank) (hdone : done ≤ q) (hq : q < stop) :
    (fill m w done stop).coverAt (Patch.shift done w.pos q) = m.coverAt q := by
  unfold fill
  rw [if_pos (Pos.lt_of_le_of_lt hdone hq)]
  refine coverAt_copy hsorted (fits_of_lt hfits) hblank hdone ?_
  rcases hq with hlt | ⟨heq, hlt⟩
  · exact Or.inl hlt
  · exact Or.inr ⟨heq, fun _ hmem => (Option.mem_some.1 hmem) ▸ hlt⟩

end Fill

/-! ## All edits -/

/-- Writes everything from the old position `done` on. -/
def carry (m : Mappings) (w : Propagation) (done : Pos) (edits : List Edit) : Propagation :=
  let (w', done') := replay m w done edits
  w'.copy m done' (max (m.length - 1) done'.line) none

theorem carry_nil : carry m w done [] = w.copy m done (max (m.length - 1) done.line) none := rfl

theorem carry_cons (e : Edit) (edits : List Edit) :
    carry m w done (e :: edits)
      = carry m ((fill m w done e.range.start).insert (Extent.ofText e.text.toList)) e.range.stop
          edits := rfl

/-- What is carried over has room in the new text: no segment that stays leaves the range of
columns. -/
def Roomy (m : Mappings) (done new : Pos) (edits : List Edit) : Prop :=
  ∀ i, ∀ s ∈ m.line i, done ≤ ⟨i, s.column⟩ →
    ∀ q ∈ Patch.movedFrom done new ⟨i, s.column⟩ edits, q.column < 0x100000000

section Carry

variable {new : Pos} {e : Edit} {edits : List Edit}

theorem Roomy.gap (h : Roomy m done new (e :: edits)) :
    ∀ i, ∀ s ∈ m.line i, done ≤ ⟨i, s.column⟩ → ⟨i, s.column⟩ < e.range.start →
      (Patch.shift done new ⟨i, s.column⟩).column < 0x100000000 := by
  intro i s hs hdone hlt
  refine h i s hs hdone _ ?_
  rw [Patch.movedFrom, if_pos hlt]
  rfl

theorem Roomy.tail (h : Roomy m done new (e :: edits)) (hdone : done ≤ e.range.start)
    (hforward : e.range.start ≤ e.range.stop) :
    Roomy m e.range.stop (e.newStop (Patch.shift done new e.range.start)) edits := by
  intro i s hs hstop q hq
  refine h i s hs (Pos.le_trans hdone (Pos.le_trans hforward hstop)) q ?_
  rw [Patch.movedFrom, if_neg (Pos.not_lt.2 (Pos.le_trans hforward hstop)),
    if_neg (Pos.not_lt.2 hstop)]
  exact hq

theorem Roomy.rest (h : Roomy m done w.pos []) :
    Fits m w done (max (m.length - 1) done.line) none := by
  intro i s hs hdone _
  exact h i s hs hdone _ rfl

/-- The writer has reached the place to which the stop of the edit goes. -/
theorem insert_fill_pos (hdone : done ≤ e.range.start) :
    ((fill m w done e.range.start).insert (Extent.ofText e.text.toList)).pos
      = e.newStop (Patch.shift done w.pos e.range.start) := by
  rw [insert_pos, fill_pos hdone, Edit.newStop]

/-- Later edits change nothing in front. -/
theorem coverAt_carry_before {q : Pos} (hsorted : m.Sorted) (hordered : Edit.Ordered edits)
    (hdone : ∀ e ∈ edits.head?, done ≤ e.range.start) (hroomy : Roomy m done w.pos edits)
    (hq : q < w.pos) : (carry m w done edits).coverAt q = w.coverAt q := by
  induction edits generalizing w done with
  | nil =>
    rw [carry_nil]
    exact coverAt_copy_before hsorted hroomy.rest (Nat.le_max_right _ _) hq
  | cons e edits ih =>
    -- neither the old text up to the edit nor the new text reaches back to `q`
    have hstart : done ≤ e.range.start := hdone e rfl
    have hgap := hroomy.gap
    have hfill : q < (fill m w done e.range.start).pos := by
      rw [fill_pos hstart]
      exact Pos.lt_of_lt_of_le hq (Patch.le_shift hstart)
    rw [carry_cons, ih hordered.tail, coverAt_insert_before _ hfill,
      coverAt_fill_before hsorted hgap hstart hq]
    · exact hordered.next
    · rw [insert_fill_pos hstart]
      exact hroomy.tail hstart hordered.head
    · rw [insert_pos]
      exact Pos.lt_of_lt_of_le hfill (Extent.le_endFrom _ _)

/-- Every position that stays is covered at its new place as it was. -/
theorem coverAt_carry {q q' : Pos} (hsorted : m.Sorted) (hordered : Edit.Ordered edits)
    (hdone : ∀ e ∈ edits.head?, done ≤ e.range.start) (hroomy : Roomy m done w.pos edits)
    (hblank : w.Blank) (hq : done ≤ q) (hmoved : Patch.movedFrom done w.pos q edits = some q') :
    (carry m w done edits).coverAt q' = m.coverAt q := by
  induction edits generalizing w done with
  | nil =>
    rw [Patch.movedFrom, Option.some.injEq] at hmoved
    subst hmoved
    rw [carry_nil]
    by_cases hline : q.line ≤ max (m.length - 1) done.line
    · refine coverAt_copy hsorted hroomy.rest hblank hq ?_
      rcases Nat.lt_or_eq_of_le hline with hlt | heq
      · exact Or.inl hlt
      · exact Or.inr ⟨heq, fun _ hmem => by cases hmem⟩
    · -- below the last line there is nothing in either text
      have hbelow : m.length ≤ q.line := by omega
      have hqdone : q.line ≠ done.line := by omega
      rw [Mappings.coverAt_eq_none hbelow]
      refine coverAt_eq_none ?_
      rw [copy_finished_length (Nat.le_max_right _ _), Patch.shift, if_neg hqdone]
      simp only [pos]
      omega
  | cons e edits ih =>
    have hstart : done ≤ e.range.start := hdone e rfl
    have hgap := hroomy.gap
    have hpos := insert_fill_pos (m := m) (w := w) hstart
    have hnext := hordered.next
    have hroomy' := hroomy.tail hstart hordered.head
    rw [← hpos] at hroomy'
    rw [carry_cons]
    rw [Patch.movedFrom] at hmoved
    split at hmoved
    · -- in front of the edit: written by `fill`, and left alone after that
      rename_i hlt
      cases hmoved
      have hfill : Patch.shift done w.pos q < (fill m w done e.range.start).pos := by
        rw [fill_pos hstart]
        exact Patch.shift_lt_shift hq hlt
      have hinsert := Pos.lt_of_lt_of_le hfill
        (Extent.le_endFrom (Extent.ofText e.text.toList) (fill m w done e.range.start).pos)
      rw [← insert_pos] at hinsert
      rw [coverAt_carry_before hsorted hordered.tail hnext hroomy' hinsert,
        coverAt_insert_before _ hfill, coverAt_fill hsorted hgap hblank hq hlt]
    · split at hmoved
      · -- inside the edit: not a place that stays
        cases hmoved
      · -- behind the edit: written later on
        rename_i hstop
        rw [← hpos] at hmoved
        exact ih hordered.tail hnext hroomy' (blank_insert _ _) (Pos.not_lt.1 hstop) hmoved

end Carry

end Retrace.Propagation

/-! ## Whole patches -/

namespace Retrace.Mappings

variable {m : Mappings} {p : Patch}

theorem applyPatch_eq_carry (m : Mappings) (p : Patch) :
    m.applyPatch p
      = (Propagation.carry m Propagation.start Pos.zero p.normalize.edits).lines := rfl

/-- No segment that stays leaves the range of columns when the patch moves it. -/
def Roomy (m : Mappings) (p : Patch) : Prop :=
  ∀ i, ∀ s ∈ m.line i, ∀ q ∈ p.moved? ⟨i, s.column⟩, q.column < 0x100000000

instance (m : Mappings) (p : Patch) : Decidable (m.Roomy p) :=
  decidable_of_iff (∀ i < m.length, ∀ s ∈ m.line i,
      ∀ q ∈ p.moved? ⟨i, s.column⟩, q.column < 0x100000000)
    ⟨fun h i s hs => h i (lt_length_of_mem_line hs) s hs, fun h i _ => h i⟩

theorem Roomy.normalize (h : m.Roomy p) :
    Propagation.Roomy m Pos.zero Pos.zero p.normalize.edits := by
  intro i s hs _ q hq
  refine h i s hs q ?_
  rw [← Patch.moved?_normalize]
  exact hq

/-- Every position that stays is covered at its new place as it was. -/
theorem coverAt_applyPatch {q q' : Pos} (hsorted : m.Sorted) (hroomy : m.Roomy p)
    (hmoved : p.moved? q = some q') : (m.applyPatch p).coverAt q' = m.coverAt q := by
  rw [← Patch.moved?_normalize] at hmoved
  rw [applyPatch_eq_carry]
  exact Propagation.coverAt_carry hsorted p.normalize.ordered
    (fun e _ => Pos.zero_le e.range.start) hroomy.normalize
    (Propagation.blank_of_current_eq_nil rfl) (Pos.zero_le q) hmoved

end Retrace.Mappings
