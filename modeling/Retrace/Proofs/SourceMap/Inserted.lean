import Retrace.Proofs.SourceMap.Written
import Retrace.Proofs.Text.Former
import Retrace.Proofs.Text.Guarded

/-!
# Inserted — what covers each place of a patched text

A place of the patched text is covered as the position that has moved there was covered, and the new
texts are covered by nothing.  This says what the patched mappings are at every place, on lines and
columns alone: the old text is not looked at.

* `Propagation.coverAt_carry_eq` — the run over all edits, by induction on them;
* `Mappings.lookup_applyPatch` — the lookups of the patched mappings;
* `Mappings.lookup_applyPatch_newRanges` — new text comes from nowhere, and when it has new ranges.
-/

namespace Retrace

namespace Propagation

variable {m : Mappings} {w : Propagation} {done q : Pos} {edits : List Edit}

/-- A place to which nothing has moved is covered by nothing. -/
theorem coverAt_carry_of_none (hsorted : m.Sorted) (hordered : Edit.Ordered edits)
    (hdone : ∀ e ∈ edits.head?, done ≤ e.range.start) (hroomy : Roomy m done w.pos edits)
    (hq : w.pos ≤ q) (hnone : Patch.formerFrom done w.pos q edits = none) :
    (carry m w done edits).coverAt q = none := by
  induction edits generalizing w done with
  | nil => cases hnone
  | cons e edits ih =>
    have hstart : done ≤ e.range.start := hdone e rfl
    have hpos := insert_fill_pos (m := m) (w := w) hstart
    have hroomy' := hroomy.tail hstart hordered.head
    rw [← hpos] at hroomy'
    rw [carry_cons]
    rw [Patch.formerFrom, ← hpos] at hnone
    by_cases hbefore : q < Patch.shift done w.pos e.range.start
    · -- what stands in front of the new text has moved there
      rw [if_pos hbefore] at hnone
      cases hnone
    · rw [if_neg hbefore] at hnone
      by_cases hwithin : q < ((fill m w done e.range.start).insert
          (Extent.ofText e.text.toList)).pos
      · -- inside the new text: marked as it is written, and left alone after that
        have hfill : (fill m w done e.range.start).pos ≤ q := by
          rw [fill_pos hstart]
          exact Pos.not_lt.1 hbefore
        rw [coverAt_carry_before hsorted hordered.tail hordered.next hroomy' hwithin]
        exact coverAt_insert_within _ hfill
      · rw [if_neg hwithin] at hnone
        exact ih hordered.tail hordered.next hroomy' (Pos.not_lt.1 hwithin) hnone

/-- Every place is covered as the position that has moved there was. -/
theorem coverAt_carry_eq (hsorted : m.Sorted) (hordered : Edit.Ordered edits)
    (hdone : ∀ e ∈ edits.head?, done ≤ e.range.start) (hroomy : Roomy m done w.pos edits)
    (hblank : w.Blank) (hq : w.pos ≤ q) :
    (carry m w done edits).coverAt q = (Patch.formerFrom done w.pos q edits).bind m.coverAt := by
  cases hformer : Patch.formerFrom done w.pos q edits with
  | none => exact coverAt_carry_of_none hsorted hordered hdone hroomy hq hformer
  | some q₀ =>
    obtain ⟨hle, hmoved⟩ := (Patch.formerFrom_eq_some hordered hdone hq).1 hformer
    exact coverAt_carry hsorted hordered hdone hroomy hblank hle hmoved

end Propagation

namespace Mappings

variable {m : Mappings} {p : Patch}

theorem coverAt_applyPatch_eq (hsorted : m.Sorted) (hroomy : m.Roomy p) (q : Pos) :
    (m.applyPatch p).coverAt q = (p.former? q).bind m.coverAt := by
  rw [applyPatch_eq_carry, ← Patch.former?_normalize]
  exact Propagation.coverAt_carry_eq hsorted p.normalize.ordered
    (fun e _ => Pos.zero_le e.range.start) hroomy.normalize
    (Propagation.blank_of_current_eq_nil rfl) (Pos.zero_le q)

/-- A lookup in the patched mappings is the lookup of the position that has moved there. -/
theorem lookup_applyPatch (hsorted : m.Sorted) (hroomy : m.Roomy p) (q : Pos) :
    (m.applyPatch p).lookup q.line q.column
      = (p.former? q).bind fun q₀ => m.lookup q₀.line q₀.column :=
  calc
    (m.applyPatch p).lookup q.line q.column
        = (m.applyPatch p).coverAt q := lookup_eq_coverAt (sorted_applyPatch hsorted hroomy) q
    _ = (p.former? q).bind m.coverAt := coverAt_applyPatch_eq hsorted hroomy q
    _ = (p.former? q).bind fun q₀ => m.lookup q₀.line q₀.column := by
          refine congrArg _ (funext fun q₀ => ?_)
          exact (lookup_eq_coverAt hsorted q₀).symm

/-- New text comes from nowhere.  In 32-bit numbers there are new ranges just if no line number on the
way to them is too wide, and then, at every place of them, there is no segment, or one without an
origin. -/
theorem lookup_applyPatch_newRanges (hsorted : m.Sorted) (hroomy : m.Roomy p)
    (hcolumns : p.ColumnsFit .word32) :
    ((p.newRangesIn? .word32).isSome ↔ p.LinesFit .word32) ∧
      ∀ ranges ∈ p.newRangesIn? .word32, ∀ r ∈ ranges, ∀ q, r.Contains q →
        (m.applyPatch p).lookup q.line q.column = none := by
  refine ⟨Patch.isSome_newRangesIn? hcolumns, ?_⟩
  intro ranges hranges r hr q hq
  rw [Patch.newRangesIn?_eq_some hranges] at hr
  rw [lookup_applyPatch hsorted hroomy, Patch.former?_newRanges p hr hq]
  rfl

/-- An edit that does nothing, a text with a line break, a deletion that touches it, and a text
where the deletion stops. -/
def brokenLine : Patch :=
  ⟨[Edit.delete (Range.emptyAt ⟨0, 1⟩), Edit.insert ⟨0, 2⟩ "x\nyz", Edit.delete ⟨⟨0, 2⟩, ⟨0, 3⟩⟩,
    Edit.insert ⟨0, 3⟩ "uv"], by decide⟩

/-- The text behind the deletion starts right after the last new text. -/
def twoOrigins : Mappings := [[⟨0, some ⟨0, 0, 0, none⟩⟩, ⟨3, some ⟨0, 7, 0, none⟩⟩]]

theorem lookup_applyPatch_newRanges_brokenLine :
    brokenLine.newRangesIn? .word32
        = some [⟨⟨0, 1⟩, ⟨0, 1⟩⟩, ⟨⟨0, 2⟩, ⟨1, 2⟩⟩, ⟨⟨1, 2⟩, ⟨1, 2⟩⟩, ⟨⟨1, 2⟩, ⟨1, 4⟩⟩] ∧
      brokenLine.LinesFit .word32 ∧ (twoOrigins.applyPatch brokenLine).lookup 1 3 = none := by
  have hsorted : twoOrigins.Sorted := by decide
  have hroomy : twoOrigins.Roomy brokenLine := by decide
  have hcolumns : brokenLine.ColumnsFit .word32 := by decide
  have hranges : brokenLine.newRangesIn? .word32
      = some [⟨⟨0, 1⟩, ⟨0, 1⟩⟩, ⟨⟨0, 2⟩, ⟨1, 2⟩⟩, ⟨⟨1, 2⟩, ⟨1, 2⟩⟩, ⟨⟨1, 2⟩, ⟨1, 4⟩⟩] := by
    decide
  obtain ⟨hsome, hnew⟩ := lookup_applyPatch_newRanges hsorted hroomy hcolumns
  refine ⟨hranges, hsome.1 (Option.isSome_of_eq_some hranges), ?_⟩
  exact hnew _ hranges ⟨⟨1, 2⟩, ⟨1, 4⟩⟩ (by decide) ⟨1, 3⟩ (by decide)

/-- Two insertions at the start of lines in a row, so far below that their numbers add up to more than
32 bits. -/
def farBelow : Patch :=
  ⟨[Edit.insert ⟨0x80000000, 0⟩ "x", Edit.insert ⟨0x80000001, 0⟩ "y"], by decide⟩

/-- A line break, and an insertion on the last line that has a 32-bit number. -/
def pushedOut : Patch :=
  ⟨[Edit.insert ⟨0, 5⟩ "\n", Edit.insert ⟨0xFFFFFFFF, 3⟩ "X"], by decide⟩

/-- There are no new ranges where the sum of two lines is too wide, be it that all places of the new
texts are 32-bit numbers or not.  In the second case the last 32 bits are those of a line that is not
new. -/
theorem newRangesIn?_farBelow :
    twoOrigins.Sorted ∧
      (twoOrigins.Roomy farBelow ∧ farBelow.ColumnsFit .word32 ∧
        farBelow.newRanges
          = [⟨⟨0x80000000, 0⟩, ⟨0x80000000, 1⟩⟩, ⟨⟨0x80000001, 0⟩, ⟨0x80000001, 1⟩⟩] ∧
        farBelow.newRangesIn? .word32 = none) ∧
      twoOrigins.Roomy pushedOut ∧ pushedOut.ColumnsFit .word32 ∧
        pushedOut.newRanges = [⟨⟨0, 5⟩, ⟨1, 0⟩⟩, ⟨⟨0x100000000, 3⟩, ⟨0x100000000, 4⟩⟩] ∧
        pushedOut.newRangesIn? .word32 = none ∧
        (twoOrigins.applyPatch pushedOut).lookup (0x100000000 % 0x100000000) 3
          = some ⟨0, 7, 0, none⟩ := by
  have hsorted : twoOrigins.Sorted := by decide
  have hroomy : twoOrigins.Roomy pushedOut := by decide
  have hlookup := lookup_applyPatch hsorted hroomy ⟨0, 3⟩
  exact ⟨hsorted, ⟨by decide, by decide, by decide, by decide⟩, hroomy, by decide, by decide,
    by decide, hlookup.trans (by decide)⟩

end Mappings

end Retrace
