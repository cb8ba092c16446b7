import Mathlib.Data.List.TakeWhile
import Retrace.Proofs.Text.Moved
import Retrace.SourceMap.Propagate

/-!
# Cover — lines of segments as functions of the column

A line of segments says for each column what covers it: the origin of the last segment that starts
there or before.  Read from left to right, every segment overrides what was said for the columns
from its own on.

* `Segment.cover` — the line as a function of the column;
* `Segment.covering_eq_cover` — on sorted lines the lookup is this function;
* `Propagation.coverAt` — the same for all that has been written;
* `Propagation.coverAt_push`, `Propagation.coverAt_newLine` — what writing changes.
-/

namespace Retrace

/-! ## Lines -/

namespace Segment

/-- Columns never decrease along the line. -/
def Sorted (line : List Segment) : Prop := line.Pairwise fun s t => s.column ≤ t.column

instance (line : List Segment) : Decidable (Sorted line) :=
  inferInstanceAs (Decidable (line.Pairwise _))

/-- What covers column `c` of a line, where `before` covers what lies in front of all segments. -/
def cover (before : Option Origin) (line : List Segment) (c : Nat) : Option Origin :=
  line.foldl (fun covering s => if s.column ≤ c then s.origin else covering) before

variable {before : Option Origin} {line line' : List Segment} {c : Nat}

@[simp] theorem cover_nil : cover before [] c = before := rfl

theorem cover_cons (s : Segment) :
    cover before (s :: line) c = cover (if s.column ≤ c then s.origin else before) line c := rfl

theorem cover_append : cover before (line ++ line') c = cover (cover before line c) line' c :=
  List.foldl_append

/-- Segments further right say nothing. -/
theorem cover_of_forall_lt (h : ∀ s ∈ line, c < s.column) : cover before line c = before := by
  induction line generalizing before with
  | nil => rfl
  | cons s rest ih =>
    have hs : ¬ s.column ≤ c := Nat.not_le.2 (h s List.mem_cons_self)
    rw [cover_cons, if_neg hs, ih fun t ht => h t (List.mem_cons_of_mem s ht)]

/-- Of segments that all start in front the last one counts. -/
theorem cover_of_forall_le (h : ∀ s ∈ line, s.column ≤ c) :
    cover before line c = (line.getLast?.map origin).getD before := by
  induction line generalizing before with
  | nil => rfl
  | cons s rest ih =>
    rw [cover_cons, if_pos (h s List.mem_cons_self), ih fun t ht => h t (List.mem_cons_of_mem s ht)]
    cases rest with
    | nil => rfl
    | cons t rest =>
      rw [List.getLast?_cons_cons, List.getLast?_eq_some_getLast (List.cons_ne_nil t rest)]
      rfl

theorem sorted_cons {s : Segment} :
    Sorted (s :: line) ↔ (∀ t ∈ line, s.column ≤ t.column) ∧ Sorted line := List.pairwise_cons

theorem Sorted.sublist (h : Sorted line') (hsub : line.Sublist line') : Sorted line :=
  List.Pairwise.sublist hsub h

/-- Columns from `c` on, once a segment has reached `c`. -/
theorem le_of_mem_dropWhile (h : Sorted line) {s : Segment}
    (hs : s ∈ line.dropWhile fun t => t.column < c) : c ≤ s.column := by
  induction line with
  | nil => cases hs
  | cons t rest ih =>
    rcases sorted_cons.1 h with ⟨hfirst, hrest⟩
    rw [List.dropWhile_cons] at hs
    split at hs
    · exact ih hrest hs
    · rename_i ht
      have hc : c ≤ t.column := by simpa using ht
      rcases List.mem_cons.1 hs with rfl | hmem
      · exact hc
      · exact Nat.le_trans hc (hfirst s hmem)

theorem lt_of_mem_takeWhile {s : Segment} (hs : s ∈ line.takeWhile fun t => t.column < c) :
    s.column < c := by
  simpa using List.mem_takeWhile_imp hs

/-- The segments in front of a column and those from it on. -/
theorem append_takeWhile_dropWhile (line : List Segment) (c : Nat) :
    (line.takeWhile fun s => s.column < c) ++ (line.dropWhile fun s => s.column < c) = line :=
  List.takeWhile_append_dropWhile

/-- On a sorted line the last segment at or in front of a column is the one that covers it. -/
theorem covering_eq_cover (h : Sorted line) :
    ((line.takeWhile fun s => s.column ≤ c).getLast?).bind origin = cover none line c := by
  have hlt : (fun s : Segment => decide (s.column ≤ c)) = fun s => decide (s.column < c + 1) := by
    funext s
    exact decide_eq_decide.2 Nat.lt_succ_iff.symm
  rw [hlt]
  conv => rhs; rw [← append_takeWhile_dropWhile line (c + 1), cover_append]
  rw [cover_of_forall_lt fun s hs => Nat.lt_of_succ_le (le_of_mem_dropWhile h hs),
    cover_of_forall_le fun s hs => Nat.le_of_lt_succ (lt_of_mem_takeWhile hs)]
  cases (line.takeWhile fun s => decide (s.column < c + 1)).getLast? <;> rfl

/-- Moving a whole line moves what covers its columns. -/
theorem cover_map_moveTo {move : Segment → Nat} {c' : Nat}
    (h : ∀ s ∈ line, move s ≤ c' ↔ s.column ≤ c) :
    cover before (line.map fun s => s.moveTo (move s)) c' = cover before line c := by
  induction line generalizing before with
  | nil => rfl
  | cons s rest ih =>
    have hs : (s.moveTo (move s)).column ≤ c' ↔ s.column ≤ c := h s List.mem_cons_self
    rw [List.map_cons, cover_cons, cover_cons, ih fun t ht => h t (List.mem_cons_of_mem s ht)]
    simp only [hs]
    rfl

end Segment

/-! ## Mappings -/

namespace Mappings

variable {m : Mappings}

/-- Every line is sorted by column. -/
def Sorted (m : Mappings) : Prop := ∀ line ∈ m, Segment.Sorted line

instance (m : Mappings) : Decidable m.Sorted :=
  inferInstanceAs (Decidable (∀ line ∈ m, Segment.Sorted line))

/-- What covers a position. -/
def coverAt (m : Mappings) (q : Pos) : Option Origin := Segment.cover none (m.line q.line) q.column

theorem line_eq_nil {i : Nat} (h : m.length ≤ i) : m.line i = [] := by
  simp [line, List.getD, List.getElem?_eq_none h]

theorem line_append (m m' : Mappings) (i : Nat) :
    line (m ++ m') i = if i < m.length then m.line i else m'.line (i - m.length) := by
  split
  · rename_i h
    simp [line, List.getD, List.getElem?_append_left h]
  · rename_i h
    simp [line, List.getD, List.getElem?_append_right (Nat.le_of_not_lt h)]

theorem lt_length_of_mem_line {i : Nat} {s : Segment} (h : s ∈ m.line i) : i < m.length := by
  refine Nat.lt_of_not_le fun hle => ?_
  rw [line_eq_nil hle] at h
  cases h

/-- What holds of every line holds of the empty ones below the last line, too, if it holds of an
empty line. -/
theorem forall_line {P : List Segment → Prop} (h : ∀ line ∈ m, P line) (hnil : P []) (i : Nat) :
    P (m.line i) := by
  unfold Mappings.line
  rcases Nat.lt_or_ge i m.length with hi | hi
  · rw [List.getD_eq_getElem?_getD, List.getElem?_eq_getElem hi]
    exact h _ (List.getElem_mem hi)
  · rw [List.getD_eq_getElem?_getD, List.getElem?_eq_none hi]
    exact hnil

theorem Sorted.line (h : m.Sorted) (i : Nat) : Segment.Sorted (m.line i) :=
  forall_line h List.Pairwise.nil i

theorem mem_of_mem_line {i : Nat} {s : Segment} (h : s ∈ m.line i) : ∃ line ∈ m, s ∈ line := by
  have hi := lt_length_of_mem_line h
  rw [Mappings.line, List.getD_eq_getElem?_getD, List.getElem?_eq_getElem hi] at h
  exact ⟨_, List.getElem_mem hi, h⟩

theorem lookup_eq_coverAt (h : m.Sorted) (q : Pos) : m.lookup q.line q.column = m.coverAt q :=
  Segment.covering_eq_cover (h.line q.line)

theorem coverAt_eq_none {q : Pos} (h : m.length ≤ q.line) : m.coverAt q = none := by
  rw [coverAt, line_eq_nil h]
  rfl

theorem coverAt_append (m m' : Mappings) (q : Pos) :
    coverAt (m ++ m') q
      = if q.line < m.length then m.coverAt q else m'.coverAt ⟨q.line - m.length, q.column⟩ := by
  rw [coverAt, line_append]
  split
  · rfl
  · rfl

/-- Lines without segments cover nothing. -/
theorem coverAt_append_nil (m : Mappings) (q : Pos) : coverAt (m ++ [[]]) q = m.coverAt q := by
  rw [coverAt_append]
  split
  · rfl
  · rename_i h
    rw [coverAt_eq_none (Nat.le_of_not_lt h), coverAt, line]
    cases q.line - m.length <;> rfl

end Mappings

/-! ## What has been written -/

namespace Propagation

variable {w : Propagation} {q : Pos} {s : Segment}

/-- The position that writing has reached. -/
def pos (w : Propagation) : Pos := ⟨w.finished.length, w.column⟩

/-- What covers a position of the lines written so far. -/
def coverAt (w : Propagation) (q : Pos) : Option Origin := w.lines.coverAt q

/-- Nothing covers what is still to come. -/
def Blank (w : Propagation) : Prop := ∀ q, w.pos ≤ q → w.coverAt q = none

theorem length_lines (w : Propagation) : w.lines.length = w.finished.length + 1 := by
  simp [lines]

theorem line_current (w : Propagation) : w.lines.line w.finished.length = w.current.reverse := by
  simp [lines, Mappings.line, List.getD]

theorem line_finished {i : Nat} (h : i < w.finished.length) :
    w.lines.line i = Mappings.line w.finished.reverse i := by
  simp [lines, Mappings.line, List.getD, List.getElem?_append_left, h]

theorem coverAt_current {c : Nat} :
    w.coverAt ⟨w.finished.length, c⟩ = Segment.cover none w.current.reverse c := by
  rw [coverAt, Mappings.coverAt, line_current]

/-- On other lines than the last one only the finished lines count. -/
theorem coverAt_congr {w' : Propagation} (hfinished : w'.finished = w.finished)
    (hq : q.line ≠ w.finished.length) : w'.coverAt q = w.coverAt q := by
  rcases Nat.lt_or_gt_of_ne hq with hlt | hgt
  · have hlt' : q.line < w'.finished.length := by rw [hfinished]; exact hlt
    rw [coverAt, coverAt, Mappings.coverAt, Mappings.coverAt, line_finished hlt,
      line_finished hlt', hfinished]
  · rw [coverAt, coverAt, Mappings.coverAt_eq_none (by rw [length_lines, hfinished]; exact hgt),
      Mappings.coverAt_eq_none (by rw [length_lines]; exact hgt)]

@[simp] theorem push_finished (w : Propagation) (s : Segment) :
    (w.push s).finished = w.finished := by
  unfold push
  split
  · split <;> rfl
  · rfl

@[simp] theorem push_column (w : Propagation) (s : Segment) : (w.push s).column = w.column := by
  unfold push
  split
  · split <;> rfl
  · rfl

@[simp] theorem push_pos (w : Propagation) (s : Segment) : (w.push s).pos = w.pos := by
  simp [pos]

/-- A segment overrides the columns from its own on. -/
theorem cover_push (c : Nat) :
    Segment.cover none (w.push s).current.reverse c
      = if s.column ≤ c then s.origin else Segment.cover none w.current.reverse c := by
  unfold push
  split
  · rename_i last rest hcurrent
    rw [hcurrent]
    split
    · rename_i hcolumn
      simp only [List.reverse_cons, Segment.cover_append, Segment.cover_cons, Segment.cover_nil,
        hcolumn]
      split <;> rfl
    · simp only [List.reverse_cons, Segment.cover_append, Segment.cover_cons, Segment.cover_nil]
  · rename_i hcurrent
    rw [hcurrent]
    rfl

theorem coverAt_push :
    (w.push s).coverAt q
      = if q.line = w.finished.length ∧ s.column ≤ q.column then s.origin else w.coverAt q := by
  rcases q with ⟨l, c⟩
  by_cases hline : l = w.finished.length
  · subst hline
    have hpush := coverAt_current (w := w.push s) (c := c)
    rw [push_finished] at hpush
    rw [hpush, cover_push, coverAt_current]
    simp only [true_and]
  · rw [coverAt_congr (push_finished w s) hline, if_neg fun h => hline h.1]

/-- Pushing segments lets them override one after another. -/
theorem coverAt_foldl_push (segments : List Segment) {c : Nat} :
    (segments.foldl push w).coverAt ⟨w.finished.length, c⟩
      = Segment.cover (w.coverAt ⟨w.finished.length, c⟩) segments c := by
  induction segments generalizing w with
  | nil => rfl
  | cons s rest ih =>
    have hrest := ih (w := w.push s)
    rw [push_finished] at hrest
    rw [List.foldl_cons, hrest, coverAt_push, Segment.cover_cons]
    simp only [true_and]

@[simp] theorem foldl_push_finished (segments : List Segment) :
    (segments.foldl push w).finished = w.finished := by
  induction segments generalizing w with
  | nil => rfl
  | cons s rest ih => rw [List.foldl_cons, ih, push_finished]

@[simp] theorem foldl_push_column (segments : List Segment) :
    (segments.foldl push w).column = w.column := by
  induction segments generalizing w with
  | nil => rfl
  | cons s rest ih => rw [List.foldl_cons, ih, push_column]

/-- A column reached by other means says nothing about what is written. -/
@[simp] theorem coverAt_with_column (column : Nat) :
    ({ w with column := column } : Propagation).coverAt q = w.coverAt q := rfl

theorem lines_newLine (w : Propagation) : w.newLine.lines = w.lines ++ [[]] := by
  simp [lines, newLine]

@[simp] theorem coverAt_newLine : w.newLine.coverAt q = w.coverAt q := by
  rw [coverAt, lines_newLine, Mappings.coverAt_append_nil]
  rfl

theorem coverAt_eq_none (h : w.finished.length < q.line) : w.coverAt q = none :=
  Mappings.coverAt_eq_none (by rw [length_lines]; exact h)

/-- An empty line covers nothing. -/
theorem blank_of_current_eq_nil (h : w.current = []) : w.Blank := by
  intro q hq
  rcases q with ⟨l, c⟩
  rcases Nat.lt_or_eq_of_le (Pos.line_le_of_le hq) with hline | hline
  · exact coverAt_eq_none hline
  · simp only [pos] at hline
    subst hline
    rw [coverAt_current, h]
    rfl

/-- After an end mark at the column reached nothing covers what follows. -/
theorem blank_push_unmapped (w : Propagation) : (w.push (Segment.unmapped w.column)).Blank := by
  intro q hq
  rw [push_pos, Pos.le_iff] at hq
  rw [coverAt_push]
  split
  · rfl
  · rename_i h
    refine coverAt_eq_none ?_
    simp only [pos, Segment.unmapped] at hq h
    omega

end Propagation

end Retrace
