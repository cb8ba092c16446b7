import Retrace.Proofs.SourceMap.Cover
import Retrace.Proofs.Text.Guarded
import Retrace.SourceMap.Guarded

/-!
# Guarded — no check of a guarded run fails

Old text is copied from the end of one edit to the start of the next, and no edit starts in front of
the end of the one before it.  This is all that the checks need: wherever the positions lie, whatever
the lines of the mappings hold, and however long the text is.

* `Segment.take_countBelow` — halving cuts a sorted line at a column;
* `Propagation.exists_copyPart?`, `Propagation.exists_copy?`, `Propagation.exists_replay?` — copying
  old text, and the run over all edits;
* `Patch.runs_within_bounds` — all guarded runs have a result, that of the runs without checks.
-/

namespace Retrace

/-! ## Lines -/

namespace Segment

variable {line : List Segment}

theorem countBelow_le (line : List Segment) (c : Nat) : countBelow line c ≤ line.length :=
  bisect_le (Nat.zero_le _)

/-- Halving finds the place where a line is cut at a column. -/
theorem countBelow_append {front back : List Segment} {c : Nat} (hfront : ∀ s ∈ front, s.column < c)
    (hback : ∀ s ∈ back, c ≤ s.column) : countBelow (front ++ back) c = front.length := by
  have hlength : front.length ≤ (front ++ back).length := by
    rw [List.length_append]
    exact Nat.le_add_right _ _
  refine bisect_eq (Nat.zero_le _) hlength ?_ ?_
  · intro i hi
    rw [List.getElem?_append_left hi, List.getElem?_eq_getElem hi]
    exact decide_eq_true (hfront _ (List.getElem_mem hi))
  · intro i hi hlt
    rw [List.length_append] at hlt
    rw [List.getElem?_append_right hi, List.getElem?_eq_getElem (by omega)]
    exact decide_eq_false (Nat.not_lt.2 (hback _ (List.getElem_mem _)))

/-- On a sorted line the segments in front of a column are the first ones. -/
theorem countBelow_eq (h : Sorted line) (c : Nat) :
    countBelow line c = (line.takeWhile fun s => s.column < c).length := by
  conv_lhs => rw [← append_takeWhile_dropWhile line c]
  exact countBelow_append (fun s hs => lt_of_mem_takeWhile hs) fun s hs => le_of_mem_dropWhile h hs

theorem take_countBelow (h : Sorted line) (c : Nat) :
    line.take (countBelow line c) = (line.takeWhile fun s => s.column < c) ∧
      line.drop (countBelow line c) = line.dropWhile fun s => s.column < c := by
  have hline : line.take (countBelow line c) ++ line.drop (countBelow line c)
      = (line.takeWhile fun s => s.column < c) ++ line.dropWhile fun s => s.column < c := by
    rw [List.take_append_drop, append_takeWhile_dropWhile]
  refine List.append_inj hline ?_
  rw [List.length_take_of_le (countBelow_le line c), countBelow_eq h]

theorem from?_countBelow (line : List Segment) (c : Nat) :
    from? line (countBelow line c) = some (line.drop (countBelow line c)) :=
  if_pos (countBelow_le line c)

/-- No column of a sorted line goes below zero with the text from `start` on. -/
theorem shifted_nonneg (h : Sorted line) (column start : Nat) :
    ∀ s ∈ line.drop (countBelow line start), 0 ≤ s.shifted column start := by
  intro s hs
  rw [(take_countBelow h start).2] at hs
  have hle := le_of_mem_dropWhile h hs
  rw [shifted]
  omega

end Segment

/-! ## Copying old text -/

namespace Propagation

variable {m : Mappings} {w : Propagation} {line : List Segment} {start : Nat} {stop? : Option Nat}

theorem movedColumn_eq_shifted (column start : Nat) (s : Segment) :
    movedColumn column start s = (s.shifted column start % 0x100000000).toNat := by
  rw [movedColumn, Segment.shifted, Int.add_sub_assoc]

/-- Copies a part of a line that has been cut at the start of the part. -/
def copyCut (w : Propagation) (front back : List Segment) (start : Nat) (stop? : Option Nat) :
    Propagation :=
  let w₁ := (front.getLast?.map fun s => s.moveTo w.column).elim w w.push
  let kept := back.takeWhile fun s => stop?.all fun stop => s.column < stop
  let w₂ := (kept.map fun s => s.moveTo (movedColumn w.column start s)).foldl push w₁
  match stop? with
  | none => w₂
  | some stop =>
    let w₃ := { w₂ with column := w₂.column + (stop - start) }
    w₃.push (Segment.unmapped w₃.column)

theorem carryOver?_eq (w : Propagation) {n : Nat} (h : n ≤ line.length) :
    w.carryOver? line n
      = some (((line.take n).getLast?.map fun s => s.moveTo w.column).elim w w.push) := by
  cases n with
  | zero => rfl
  | succ n =>
    have hlt : n < line.length := h
    rw [carryOver?, if_pos (Nat.succ_pos n), Nat.add_sub_cancel, List.getLast?_take,
      if_neg (Nat.succ_ne_zero n), Nat.add_sub_cancel, List.getElem?_eq_getElem hlt]
    rfl

theorem copyPart?_eq (hstop : ∀ stop ∈ stop?, start ≤ stop) :
    w.copyPart? line start stop?
      = some (w.copyCut (line.take (Segment.countBelow line start))
          (line.drop (Segment.countBelow line start)) start stop?) := by
  have hopened := carryOver?_eq w (Segment.countBelow_le line start)
  cases stop? with
  | none =>
    simp only [copyPart?, hopened, Segment.from?_countBelow, ← movedColumn_eq_shifted,
      Option.bind_eq_bind, Option.bind_some]
    rfl
  | some stop =>
    simp only [copyPart?, hopened, Segment.from?_countBelow, ← movedColumn_eq_shifted,
      Option.bind_eq_bind, Option.bind_some, minus?_eq (hstop stop rfl)]
    rfl

/-- A part that does not stop in front of its start is copied, whatever the line. -/
theorem exists_copyPart? (w : Propagation) (line : List Segment)
    (hstop : ∀ stop ∈ stop?, start ≤ stop) :
    ∃ w', w.copyPart? line start stop? = some w' ∧
      (Segment.Sorted line → w' = w.copyPart line start stop?) := by
  refine ⟨_, copyPart?_eq hstop, fun hsorted => ?_⟩
  obtain ⟨htake, hdrop⟩ := Segment.take_countBelow hsorted start
  rw [htake, hdrop]
  rfl

theorem exists_copy? (m : Mappings) (w : Propagation) {done : Pos} {last : Nat}
    (hahead : Ahead done last stop?) :
    ∃ w', w.copy? m done last stop? = some w' ∧
      (m.Sorted → w' = w.copy m done last stop?) := by
  rw [copy?, if_pos hahead]
  rw [Ahead, Pos.le_iff] at hahead
  by_cases hline : done.line = last
  · -- within one line the order of the positions is that of the columns
    have hstop : ∀ stop ∈ stop?, done.column ≤ stop := by
      intro stop hmem
      rw [Option.mem_def.1 hmem] at hahead
      simp only [Option.getD_some] at hahead
      omega
    obtain ⟨w', hcopy, heq⟩ := exists_copyPart? w (m.line done.line) hstop
    rw [if_pos hline]
    refine ⟨w', hcopy, fun hsorted => ?_⟩
    rw [heq (hsorted.line _), copy, if_pos hline]
  · -- the first line is copied to its end, the last one from its start
    have hend : ∀ stop ∈ (none : Option Nat), done.column ≤ stop := fun stop hmem => by cases hmem
    have hstop : ∀ stop ∈ stop?, 0 ≤ stop := fun stop _ => Nat.zero_le stop
    obtain ⟨w₁, hfirst, heq₁⟩ := exists_copyPart? w (m.line done.line) hend
    obtain ⟨w₂, hlast, heq₂⟩ := exists_copyPart?
      ⟨((List.range' (done.line + 1) (last - (done.line + 1))).map m.line).reverse
        ++ (w₁.current.reverse :: w₁.finished), [], 0⟩ (m.line last) hstop
    rw [if_neg hline]
    simp only [hfirst, Option.bind_eq_bind, Option.bind_some]
    refine ⟨w₂, hlast, fun hsorted => ?_⟩
    rw [heq₂ (hsorted.line _), heq₁ (hsorted.line _), copy, if_neg hline]

theorem exists_catchUp? (m : Mappings) (w : Propagation) (done start : Pos) :
    ∃ w', w.catchUp? m done start = some w' ∧
      (m.Sorted → w' = if done < start then w.copy m done start.line (some start.column) else w) := by
  by_cases hlt : done < start
  · have hahead : Ahead done start.line (some start.column) := Pos.le_of_lt hlt
    rw [catchUp?, if_pos hlt, if_pos hlt]
    exact exists_copy? m w hahead
  · rw [catchUp?, if_neg hlt, if_neg hlt]
    exact ⟨w, rfl, fun _ => rfl⟩

/-- The run over the edits, each of which is caught up with or has been. -/
theorem exists_replay? (m : Mappings) (w : Propagation) (done : Pos) (edits : List Edit) :
    ∃ x, replay? m w done edits = some x ∧ (m.Sorted → x = replay m w done edits) := by
  induction edits generalizing w done with
  | nil => exact ⟨(w, done), rfl, fun _ => rfl⟩
  | cons e rest ih =>
    obtain ⟨w₁, hcatch, heq₁⟩ := exists_catchUp? m w done e.range.start
    obtain ⟨x, hrest, heq⟩ := ih (w₁.insert (Extent.ofText e.text.toList)) e.range.stop
    refine ⟨x, ?_, fun hsorted => ?_⟩
    · simp only [replay?, hcatch, Option.bind_eq_bind, Option.bind_some]
      exact hrest
    · rw [heq hsorted, heq₁ hsorted, replay]

end Propagation

/-- The guarded run over mappings has a result, and on sorted lines it is that of the other run. -/
theorem Mappings.exists_applyPatch? (m : Mappings) (p : Patch) :
    ∃ m', m.applyPatch? p = some m' ∧ (m.Sorted → m' = m.applyPatch p) := by
  obtain ⟨⟨w, done⟩, hreplay, heq⟩ :=
    Propagation.exists_replay? m Propagation.start Pos.zero p.normalize.edits
  -- the last edit may end on a line that the mappings do not have
  have hahead : Propagation.Ahead done (max (m.length - 1) done.line) none := by
    rw [Propagation.Ahead, Pos.le_iff, Option.getD_none]
    simp only
    omega
  obtain ⟨w', hcopy, heq'⟩ := Propagation.exists_copy? m w hahead
  refine ⟨w'.lines, ?_, fun hsorted => ?_⟩
  · simp only [applyPatch?, hreplay, hcopy, Option.bind_eq_bind, Option.bind_some]
    rfl
  · rw [heq' hsorted, applyPatch, ← heq hsorted]

namespace Patch

/-- Wherever the positions of a patch lie, and whatever lines the mappings have, no check of a guarded
run fails: no difference goes below zero, old text is copied up to a place that is not in front of the
one where it starts, and a text is cut between two boundaries of its characters.  What the runs make
is what they make without checks, of mappings if their lines are sorted.  On a sorted line no column
is moved below zero. -/
theorem runs_within_bounds (p : Patch) (m : Mappings) (text : String) :
    (∃ m', m.applyPatch? p = some m' ∧ (m.Sorted → m' = m.applyPatch p)) ∧
      p.newRanges? = some p.newRanges ∧
      p.applied? text = some (p.apply text) ∧
      ∀ line, Segment.Sorted line → ∀ column start,
        ∃ rest, Segment.from? line (Segment.countBelow line start) = some rest ∧
          ∀ s ∈ rest, 0 ≤ s.shifted column start := by
  refine ⟨m.exists_applyPatch? p, p.newRanges?_eq, p.applied?_eq text, ?_⟩
  intro line hsorted column start
  exact ⟨_, Segment.from?_countBelow line start, Segment.shifted_nonneg hsorted column start⟩

/-- A deletion that goes on behind the last line, and an insertion further still. -/
def overshoot : Patch :=
  ⟨[Edit.delete ⟨⟨0, 1⟩, ⟨2, 9⟩⟩, Edit.insert ⟨7, 3⟩ "ü\n"], by decide⟩

/-- One line out of order. -/
def crooked : Mappings := [[⟨5, none⟩, ⟨0, some ⟨0, 0, 0, none⟩⟩]]

/-- One line in order. -/
def straight : Mappings := [[⟨0, some ⟨0, 0, 0, none⟩⟩, ⟨4, none⟩]]

theorem runs_within_bounds_overshoot :
    (∃ m', crooked.applyPatch? overshoot = some m') ∧ straight.Sorted ∧
      straight.applyPatch? overshoot = some (straight.applyPatch overshoot) ∧
      overshoot.applied? "aé\nb" = some "aü\n" ∧
      Segment.Sorted (straight.line 0) ∧
      ∃ rest, Segment.from? (straight.line 0) 1 = some rest ∧ ∀ s ∈ rest, 0 ≤ s.shifted 0 3 := by
  have hsorted : straight.Sorted := by decide
  have hline : Segment.Sorted (straight.line 0) := by decide
  have hcount : Segment.countBelow (straight.line 0) 3 = 1 := Segment.countBelow_eq hline 3
  obtain ⟨⟨m', hcrooked, -⟩, -, -, -⟩ := runs_within_bounds overshoot crooked ""
  obtain ⟨⟨m'', hrun, hsame⟩, -, htext, hshifted⟩ := runs_within_bounds overshoot straight "aé\nb"
  rw [hsame hsorted] at hrun
  have hrest := hshifted _ hline 0 3
  rw [hcount] at hrest
  exact ⟨⟨m', hcrooked⟩, hsorted, hrun, htext.trans (by decide), hline, hrest⟩

end Patch

end Retrace
