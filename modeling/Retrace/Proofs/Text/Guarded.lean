import Mathlib.Data.List.Infix
import Retrace.Proofs.Text.LineTable
import Retrace.Proofs.Text.Place
import Retrace.Text.Guarded

/-!
# Guarded — when the checks of a run over texts hold

A run over a patch goes from the end of one edit to the start of the next, and no edit starts in
front of the end of the one before it.  In exact numbers this is all that the checks need.  In numbers
of a width the sums have to fit as well, those of line numbers before anything is taken off them.

* `Extent.ofText?_eq`, `Extent.endFrom?_eq` — the extent of a text, and where the text ends;
* `Patch.ColumnsFit`, `Patch.LinesFit` — the columns of the new texts and the sums of lines fit;
* `Patch.newRangesFrom?_eq`, `Patch.newRangesFrom?_eq_some` — the run over the edits, by induction on
  them;
* `Patch.isSome_newRangesIn?` — where columns fit, there are new ranges just if lines do, too;
* `Patch.applied?_eq` — the edited text is there for every patch.
-/

namespace Retrace

variable {k : Width}

/-! ## Extents -/

namespace Extent

variable {e e' : Extent} {c : Char} {text : List Char} {p q : Pos}

theorem push?_eq (hlines : k.Admits (e.push c).lines) (hcolumns : k.Admits (e.push c).columns) :
    push? k e c = some (e.push c) := by
  by_cases hc : c = '\n'
  · rw [push, if_pos hc] at hlines
    rw [push?, push, if_pos hc, if_pos hc, Width.plus?_eq hlines]
    rfl
  · rw [push, if_neg hc] at hcolumns
    rw [push?, push, if_neg hc, if_neg hc, Width.plus?_eq hcolumns]
    rfl

theorem push?_eq_some (h : push? k e c = some e') : e' = e.push c := by
  by_cases hc : c = '\n'
  · rw [push?, if_pos hc, Option.map_eq_some_iff] at h
    obtain ⟨lines, hsum, rfl⟩ := h
    rw [push, if_pos hc, (Width.plus?_eq_some.1 hsum).2]
  · rw [push?, if_neg hc, Option.map_eq_some_iff] at h
    obtain ⟨columns, hsum, rfl⟩ := h
    rw [push, if_neg hc, (Width.plus?_eq_some.1 hsum).2]

theorem ofText_concat (text : List Char) (c : Char) :
    ofText (text ++ [c]) = (ofText text).push c := List.foldl_concat push zero c text

theorem ofText?_concat (k : Width) (text : List Char) (c : Char) :
    ofText? k (text ++ [c]) = (ofText? k text).bind fun e => push? k e c := by
  have hlast : ∀ e, [c].foldlM (push? k) e = push? k e c := fun e => by simp
  rw [ofText?, List.foldlM_append, Option.bind_eq_bind]
  simp only [hlast]
  rfl

/-- A text can be measured if all that it starts with has extents that fit. -/
theorem ofText?_eq (h : ∀ t, t <+: text → k.Admits (ofText t).lines ∧ k.Admits (ofText t).columns) :
    ofText? k text = some (ofText text) := by
  -- the run is a left fold, so what it has come to is the extent of what is in front
  induction text using List.reverseRecOn with
  | nil => rfl
  | append_singleton text c ih =>
    have hfront := ih fun t ht => h t (ht.trans (List.prefix_append text [c]))
    obtain ⟨hlines, hcolumns⟩ := h (text ++ [c]) (List.prefix_refl _)
    rw [ofText_concat] at hlines hcolumns ⊢
    rw [ofText?_concat, hfront, Option.bind_some, push?_eq hlines hcolumns]

theorem ofText?_eq_some (h : ofText? k text = some e) : e = ofText text := by
  induction text using List.reverseRecOn generalizing e with
  | nil => exact (Option.some.inj h).symm
  | append_singleton text c ih =>
    rw [ofText?_concat, Option.bind_eq_some_iff] at h
    obtain ⟨front, hfront, hpush⟩ := h
    rw [ofText_concat, ← ih hfront]
    exact push?_eq_some hpush

theorem endFrom?_eq (hline : k.Admits (e.endFrom p).line) (hcolumn : k.Admits (e.endFrom p).column) :
    e.endFrom? k p = some (e.endFrom p) := by
  by_cases hlines : e.lines = 0
  · rw [endFrom, if_pos hlines] at hcolumn
    rw [endFrom?, endFrom, if_pos hlines, if_pos hlines, Width.plus?_eq hcolumn]
    rfl
  · rw [endFrom, if_neg hlines] at hline
    rw [endFrom?, endFrom, if_neg hlines, if_neg hlines, Width.plus?_eq hline]
    rfl

theorem endFrom?_eq_some (hp : k.Admits p.line) (h : e.endFrom? k p = some q) :
    q = e.endFrom p ∧ k.Admits q.line := by
  by_cases hlines : e.lines = 0
  · rw [endFrom?, if_pos hlines, Option.map_eq_some_iff] at h
    obtain ⟨column, hsum, rfl⟩ := h
    rw [endFrom, if_pos hlines, (Width.plus?_eq_some.1 hsum).2]
    exact ⟨rfl, hp⟩
  · rw [endFrom?, if_neg hlines, Option.map_eq_some_iff] at h
    obtain ⟨line, hsum, rfl⟩ := h
    obtain ⟨hfits, rfl⟩ := Width.plus?_eq_some.1 hsum
    rw [endFrom, if_neg hlines]
    exact ⟨rfl, hfits⟩

/-- The end of a text is no nearer than the text is long. -/
theorem le_line_endFrom (e : Extent) (p : Pos) :
    e.lines ≤ (e.endFrom p).line ∧ e.columns ≤ (e.endFrom p).column := by
  by_cases hlines : e.lines = 0
  · rw [endFrom, if_pos hlines, hlines]
    exact ⟨Nat.zero_le _, Nat.le_add_left _ _⟩
  · rw [endFrom, if_neg hlines]
    exact ⟨Nat.le_add_left _ _, Nat.le_refl _⟩

/-- A text can be measured if reading it fits, from anywhere on. -/
theorem ofText?_eq_of_after (hline : k.Admits (p.after text).line)
    (hcolumns : ∀ t, t <+: text → k.Admits (p.after t).column) :
    ofText? k text = some (ofText text) := by
  refine ofText?_eq fun t ht => ?_
  obtain ⟨rest, rfl⟩ := ht
  have hread : (p.after t).line ≤ (p.after (t ++ rest)).line := by
    rw [Pos.after_append]
    exact Pos.line_le_of_le (Pos.le_after _ rest)
  have hcolumn := hcolumns t (List.prefix_append t rest)
  rw [Pos.after_eq_endFrom] at hread hcolumn
  obtain ⟨hlines, hcolumns⟩ := le_line_endFrom (ofText t) p
  exact ⟨hline.mono (Nat.le_trans hlines hread), hcolumn.mono hcolumns⟩

end Extent

/-! ## New ranges -/

namespace Patch

variable {old new start q : Pos} {edits : List Edit} {ranges : List Range} {p : Patch}

theorem shift?_eq (h : old ≤ start) (hcolumn : k.Admits (shift old new start).column)
    (hline : start.line ≠ old.line → k.Admits (start.line + new.line)) :
    shift? k old new start = some (shift old new start) := by
  rw [Pos.le_iff] at h
  by_cases hsame : start.line = old.line
  · have hdiff : minus? start.column old.column = some (start.column - old.column) :=
      minus?_eq (by omega)
    rw [shift, if_pos hsame] at hcolumn
    simp only [shift?, shift, if_pos hsame, hdiff, Width.plus?_eq hcolumn, Option.bind_eq_bind,
      Option.bind_some, Option.pure_def]
  · have hdiff : minus? (start.line + new.line) old.line = some (start.line + new.line - old.line) :=
      minus?_eq (by omega)
    simp only [shift?, shift, if_neg hsame, hdiff, Width.plus?_eq (hline hsame),
      Option.bind_eq_bind, Option.bind_some, Option.pure_def]

theorem shift?_eq_some (hnew : k.Admits new.line) (h : shift? k old new start = some q) :
    q = shift old new start ∧ k.Admits q.line ∧
      (start.line ≠ old.line → k.Admits (start.line + new.line)) := by
  by_cases hsame : start.line = old.line
  · simp only [shift?, if_pos hsame, Option.bind_eq_bind, Option.bind_eq_some_iff, minus?_eq_some,
      Width.plus?_eq_some] at h
    obtain ⟨columns, ⟨-, rfl⟩, column, ⟨-, rfl⟩, hq⟩ := h
    cases hq
    rw [shift, if_pos hsame]
    exact ⟨rfl, hnew, fun hother => absurd hsame hother⟩
  · simp only [shift?, if_neg hsame, Option.bind_eq_bind, Option.bind_eq_some_iff, minus?_eq_some,
      Width.plus?_eq_some] at h
    obtain ⟨sum, ⟨hsum, rfl⟩, line, ⟨-, rfl⟩, hq⟩ := h
    cases hq
    rw [shift, if_neg hsame]
    exact ⟨rfl, hsum.mono (Nat.sub_le _ _), fun _ => hsum⟩

/-- No column in the new texts is too wide, if the text behind `old` goes behind `new`. -/
def ColumnsFitFrom (k : Width) (old new : Pos) (edits : List Edit) : Prop :=
  ∀ x ∈ edits.zip (newRangesFrom old new edits), ∀ t ∈ x.1.text.toList.inits,
    k.Admits (x.2.start.after t).column

/-- No line number is too wide that comes up between two edits, or at the end of a new text, if the
text behind `old` goes behind `new`.  From one edit to the next the line that the second one starts on
is added to the last line of the first new text. -/
def LinesFitFrom (k : Width) (old new : Pos) (edits : List Edit) : Prop :=
  (∀ x ∈ ((old, new) :: stopsFrom old new edits).zip edits,
      x.2.range.start.line ≠ x.1.1.line → k.Admits (x.2.range.start.line + x.1.2.line)) ∧
    ∀ r ∈ newRangesFrom old new edits, k.Admits r.stop.line

instance (k : Width) (old new : Pos) (edits : List Edit) : Decidable (ColumnsFitFrom k old new edits) :=
  inferInstanceAs (Decidable (∀ x ∈ edits.zip (newRangesFrom old new edits), _))

instance (k : Width) (old new : Pos) (edits : List Edit) : Decidable (LinesFitFrom k old new edits) :=
  inferInstanceAs (Decidable (_ ∧ _))

/-- No column in the new texts is too wide. -/
def ColumnsFit (k : Width) (p : Patch) : Prop := ColumnsFitFrom k Pos.zero Pos.zero p.edits

/-- No line number is too wide that comes up on the way to the new ranges. -/
def LinesFit (k : Width) (p : Patch) : Prop := LinesFitFrom k Pos.zero Pos.zero p.edits

instance (k : Width) (p : Patch) : Decidable (p.ColumnsFit k) :=
  inferInstanceAs (Decidable (ColumnsFitFrom k Pos.zero Pos.zero p.edits))

instance (k : Width) (p : Patch) : Decidable (p.LinesFit k) :=
  inferInstanceAs (Decidable (LinesFitFrom k Pos.zero Pos.zero p.edits))

theorem columnsFitFrom_cons {e : Edit} :
    ColumnsFitFrom k old new (e :: edits) ↔
      (∀ t, t <+: e.text.toList → k.Admits ((shift old new e.range.start).after t).column) ∧
        ColumnsFitFrom k e.range.stop (e.newStop (shift old new e.range.start)) edits := by
  simp only [ColumnsFitFrom, newRangesFrom, List.zip_cons_cons, List.forall_mem_cons, List.mem_inits]
  rfl

theorem linesFitFrom_cons {e : Edit} :
    LinesFitFrom k old new (e :: edits) ↔
      (e.range.start.line ≠ old.line → k.Admits (e.range.start.line + new.line)) ∧
        k.Admits (e.newStop (shift old new e.range.start)).line ∧
          LinesFitFrom k e.range.stop (e.newStop (shift old new e.range.start)) edits := by
  simp only [LinesFitFrom, newRangesFrom, stopsFrom_cons, List.zip_cons_cons, List.forall_mem_cons]
  constructor
  · rintro ⟨⟨hsum, hsums⟩, hstop, hstops⟩
    exact ⟨hsum, hstop, hsums, hstops⟩
  · rintro ⟨hsum, hstop, hsums, hstops⟩
    exact ⟨⟨hsum, hsums⟩, hstop, hstops⟩

/-- The run over edits whose columns and lines fit. -/
theorem newRangesFrom?_eq (hordered : Edit.Ordered edits)
    (hold : ∀ e ∈ edits.head?, old ≤ e.range.start) (hcolumns : ColumnsFitFrom k old new edits)
    (hlines : LinesFitFrom k old new edits) :
    newRangesFrom? k old new edits = some (newRangesFrom old new edits) := by
  induction edits generalizing old new with
  | nil => rfl
  | cons e rest ih =>
    obtain ⟨hcolumn, hcolumns⟩ := columnsFitFrom_cons.1 hcolumns
    obtain ⟨hsum, hline, hlines⟩ := linesFitFrom_cons.1 hlines
    have hstart : shift? k old new e.range.start = some (shift old new e.range.start) :=
      shift?_eq (hold e rfl) (hcolumn [] List.nil_prefix) hsum
    have hafter : (shift old new e.range.start).after e.text.toList
        = e.newStop (shift old new e.range.start) := Pos.after_eq_endFrom _ _
    -- the text is measured on its own, where no number is larger than at its place
    have hlength : Extent.ofText? k e.text.toList = some (Extent.ofText e.text.toList) :=
      Extent.ofText?_eq_of_after (hafter ▸ hline) hcolumn
    have hlast : k.Admits (e.newStop (shift old new e.range.start)).column :=
      hafter ▸ hcolumn e.text.toList (List.prefix_refl _)
    have hstop : (Extent.ofText e.text.toList).endFrom? k (shift old new e.range.start)
        = some (e.newStop (shift old new e.range.start)) := Extent.endFrom?_eq hline hlast
    have hrest := ih hordered.tail hordered.next hcolumns hlines
    simp only [newRangesFrom?, hstart, hlength, hstop, hrest, Option.bind_eq_bind, Option.bind_some]
    rfl

/-- What the run makes are the new ranges, and then all sums of lines have been small enough. -/
theorem newRangesFrom?_eq_some (hnew : k.Admits new.line)
    (h : newRangesFrom? k old new edits = some ranges) :
    ranges = newRangesFrom old new edits ∧ LinesFitFrom k old new edits := by
  induction edits generalizing old new ranges with
  | nil =>
    cases h
    exact ⟨rfl, List.forall_mem_nil _, List.forall_mem_nil _⟩
  | cons e rest ih =>
    simp only [newRangesFrom?, Option.bind_eq_bind, Option.bind_eq_some_iff] at h
    obtain ⟨start, hstart, length, hlength, stop, hstop, more, hmore, hranges⟩ := h
    cases hranges
    -- each step hands on that the line it has come to is not too wide
    obtain ⟨rfl, hline, hsum⟩ := shift?_eq_some hnew hstart
    obtain rfl := Extent.ofText?_eq_some hlength
    obtain ⟨rfl, hlast⟩ := Extent.endFrom?_eq_some hline hstop
    obtain ⟨rfl, hlines⟩ := ih hlast hmore
    exact ⟨rfl, linesFitFrom_cons.2 ⟨hsum, hlast, hlines⟩⟩

theorem newRangesIn?_eq_some (h : p.newRangesIn? k = some ranges) : ranges = p.newRanges :=
  (newRangesFrom?_eq_some k.admits_zero h).1

/-- Where the columns of the new texts fit, there are new ranges just if the sums of lines fit. -/
theorem isSome_newRangesIn? (hcolumns : p.ColumnsFit k) :
    (p.newRangesIn? k).isSome ↔ p.LinesFit k := by
  constructor
  · intro hsome
    obtain ⟨ranges, hranges⟩ := Option.isSome_iff_exists.1 hsome
    exact (newRangesFrom?_eq_some k.admits_zero hranges).2
  · intro hlines
    have hrun := newRangesFrom?_eq p.ordered (fun e _ => Pos.zero_le e.range.start) hcolumns hlines
    exact Option.isSome_of_eq_some hrun

/-- In exact numbers there are new ranges for every patch. -/
theorem newRanges?_eq (p : Patch) : p.newRanges? = some p.newRanges :=
  newRangesFrom?_eq p.ordered (fun e _ => Pos.zero_le e.range.start)
    (fun _ _ _ _ => trivial) ⟨fun _ _ _ => trivial, fun _ _ => trivial⟩

end Patch

/-! ## The edited text -/

namespace Text

variable {text : List Char} {o o' : Nat}

/-- Between two boundaries in order there is something to cut out. -/
theorem substring?_of_boundary (ho : Boundary text o) (ho' : Boundary text o') (h : o ≤ o') :
    Span.substring? ⟨o, o'⟩ text = some (takeBytes (o' - o) (dropBytes o text)) := by
  obtain ⟨front, middle, back, rfl, rfl, rfl⟩ := LineTable.exists_cut ho ho' h
  have hlength : byteLength (front ++ middle) - byteLength front = byteLength middle := by
    rw [byteLength_append, Nat.add_sub_cancel_left]
  rw [substring?_append, dropBytes_append, hlength, takeBytes_append]

theorem substring?_end (ho : Boundary text o) :
    Span.substring? ⟨o, byteLength text⟩ text = some (dropBytes o text) := by
  obtain ⟨front, back, rfl, rfl⟩ := boundary_iff.1 ho
  have hcut := substring?_append front back []
  rw [List.append_nil] at hcut
  rw [hcut, dropBytes_append]

theorem boundary_max (ho : Boundary text o) (ho' : Boundary text o') : Boundary text (max o o') := by
  rcases Nat.le_total o o' with h | h
  · rwa [Nat.max_eq_right h]
  · rwa [Nat.max_eq_left h]

end Text

namespace Patch

variable {edits : List Edit}

theorem kept?_eq {text : List Char} {done start : Nat} (hdone : Text.Boundary text done)
    (hstart : Text.Boundary text start) :
    kept? (LineTable.ofText text) done start
      = some (Text.takeBytes (start - done) (Text.dropBytes done text)) := by
  by_cases hlt : done < start
  · exact (if_pos hlt).trans (Text.substring?_of_boundary hdone hstart (Nat.le_of_lt hlt))
  · -- the edit starts where the one before it stops, or both stand for one place
    rw [kept?, if_neg hlt, Nat.sub_eq_zero_of_le (Nat.not_lt.1 hlt)]
    cases Text.dropBytes done text <;> rfl

/-- What is behind ends at a boundary, and so does every edit. -/
theorem applyFrom?_eq {text : List Char} {done : Nat} (hdone : Text.Boundary text done) :
    applyFrom? (LineTable.ofText text) done edits = some (applyFrom text done edits) := by
  induction edits generalizing done with
  | nil => exact Text.substring?_end hdone
  | cons e rest ih =>
    -- offsets need not grow from edit to edit, since positions off the text share one offset
    have hkept := kept?_eq hdone (Text.boundary_offsetOf text e.range.start)
    have hrest := ih (Text.boundary_max hdone (Text.boundary_offsetOf text e.range.stop))
    simp only [applyFrom?, LineTable.spanOf?_ofText, Text.spanOf, Option.bind_eq_bind,
      Option.bind_some, hkept, hrest]
    rfl

/-- The edited text is put together from pieces of the old one that can all be cut out. -/
theorem applied?_eq (p : Patch) (text : String) : p.applied? text = some (p.apply text) := by
  have hzero : Text.Boundary text.toList 0 := Text.boundary_byteLength [] text.toList
  rw [applied?, applyFrom?_eq hzero]
  rfl

end Patch

end Retrace
