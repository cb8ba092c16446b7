import Retrace.Proofs.SourceMap.Inserted
import Retrace.Proofs.Text.Clamp

/-!
# Clamped — positions outside the text, seen by the text and by the mappings

A patch is carried out on a text as if its positions were the ones inside that they stand for.  The
mappings know no line ends: to them every line goes on for ever, and there is always a next one.
The two agree as long as no edit starts outside the text or stops where this matters.

* `Mappings.Settled` — a stop of which it does not matter how far past its line end it is;
* `Patch.Undisturbed` — the places where it makes no difference how the patch is read;
* `Mappings.lookup_applyPatch_clamp` — there both readings give the same lookups;
* `Mappings.farInsert_covered` — elsewhere they need not.
-/

namespace Retrace

namespace Patch

variable {old new p q : Pos}

theorem shift_le_shift (hp : old ≤ p) (hpq : p ≤ q) : shift old new p ≤ shift old new q := by
  by_cases hlt : p < q
  · exact Pos.le_of_lt (shift_lt_shift hp hlt)
  · rw [Pos.le_antisymm hpq (Pos.not_lt.1 hlt)]
    exact Pos.le_refl _

end Patch

namespace Mappings

/-- The position is inside the text, or past the end of a line behind whose end no segment
starts. -/
def Settled (m : Mappings) (text : List Char) (p : Pos) : Prop :=
  Text.Inside text p ∨
    Text.Inside text ⟨p.line, 0⟩ ∧ ∀ s ∈ m.line p.line, Text.Inside text ⟨p.line, s.column⟩

instance (m : Mappings) (text : List Char) (p : Pos) : Decidable (m.Settled text p) :=
  inferInstanceAs (Decidable (_ ∨ _ ∧ ∀ s ∈ m.line p.line, _))

/-- A position past the end of a line, which stands for that end, with no segment in between. -/
structure PastEnd (m : Mappings) (text : List Char) (p : Pos) : Prop where
  line : (Text.clamp text p).line = p.line
  column : (Text.clamp text p).column < p.column
  last : ∀ c, Text.Inside text ⟨p.line, c⟩ → c ≤ (Text.clamp text p).column
  segments : ∀ s ∈ m.line p.line, s.column ≤ (Text.clamp text p).column

variable {m : Mappings} {text : List Char} {done new p q : Pos}

theorem Settled.inside_or_pastEnd (h : m.Settled text p) :
    Text.Inside text p ∨ m.PastEnd text p := by
  by_cases hp : Text.Inside text p
  · exact Or.inl hp
  · refine Or.inr ?_
    obtain ⟨⟨line, hline, -⟩, hsegments⟩ := h.resolve_left hp
    have hend : Text.Inside text ⟨p.line, line.length⟩ := ⟨line, hline, Nat.le_refl _⟩
    have hpast : line.length < p.column := Nat.lt_of_not_le fun hle => hp ⟨line, hline, hle⟩
    have hlast : ∀ c, Text.Inside text ⟨p.line, c⟩ → c ≤ line.length := by
      rintro c ⟨line', hline', hc⟩
      rw [hline] at hline'
      cases hline'
      exact hc
    -- the end of the line is the last position inside that is not past `p`
    have hclamp : Text.clamp text p = ⟨p.line, line.length⟩ := by
      have hle := Text.clamp_le text p
      have hge : (⟨p.line, line.length⟩ : Pos) ≤ Text.clamp text p :=
        (Text.le_clamp_iff hend).2 (Or.inr ⟨rfl, Nat.le_of_lt hpast⟩)
      have hinside := Text.inside_clamp text p
      generalize Text.clamp text p = c at hle hge hinside
      rw [Pos.le_iff] at hle hge
      have hcline : c.line = p.line := by
        simp only at hge
        omega
      have hcolumn : c.column ≤ line.length := hlast c.column (hcline ▸ hinside)
      ext
      · exact hcline
      · simp only at hge ⊢
        omega
    constructor
    · rw [hclamp]
    · rw [hclamp]
      exact hpast
    · rw [hclamp]
      exact hlast
    · rw [hclamp]
      exact fun s hs => hlast s.column (hsegments s hs)

/-! ## Carrying over from a settled stop -/

/-- Positions inside the text are carried over alike. -/
theorem Settled.shift_inside (h : m.Settled text done) (hq : Text.Inside text q) (hle : done ≤ q) :
    Patch.shift (Text.clamp text done) new q = Patch.shift done new q := by
  rcases h.inside_or_pastEnd with hinside | hpast
  · rw [Text.clamp_of_inside hinside]
  · -- on its line there is no position inside behind `done`
    have hline : q.line ≠ done.line := by
      intro heq
      have hcolumn := hpast.last q.column (heq ▸ hq)
      have hbehind := hpast.column
      rw [Pos.le_iff] at hle
      omega
    rw [Patch.shift, Patch.shift, hpast.line, if_neg hline, if_neg hline]

/-- Other positions are carried over no further than the ones they stand for. -/
theorem Settled.shift_clamp_le (h : m.Settled text done) (hle : done ≤ p) :
    Patch.shift (Text.clamp text done) new (Text.clamp text p) ≤ Patch.shift done new p := by
  have hclamp := Text.clamp_le_clamp text hle
  have hp := Text.clamp_le text p
  rcases h.inside_or_pastEnd with hinside | hpast
  · rw [Text.clamp_of_inside hinside] at hclamp ⊢
    exact Patch.shift_le_shift hclamp hp
  · by_cases hline : (Text.clamp text p).line = done.line
    · -- both stand for the end of the line
      have hcolumn := hpast.last (Text.clamp text p).column (hline ▸ Text.inside_clamp text p)
      have hend : Text.clamp text p = Text.clamp text done := by
        rw [Pos.le_iff] at hclamp
        ext
        · rw [hline, hpast.line]
        · have := hpast.line
          omega
      rw [hend, Patch.shift_self]
      exact Patch.le_shift hle
    · -- both have left the line behind
      have hpline : p.line ≠ done.line := by
        have := hpast.line
        rw [Pos.le_iff] at hclamp hp
        omega
      rw [Patch.shift, Patch.shift, hpast.line, if_neg hline, if_neg hpline]
      have := hpast.line
      rw [Pos.le_iff] at hclamp hp ⊢
      simp only
      omega

/-- What is carried back is covered alike. -/
theorem Settled.coverAt_shift (h : m.Settled text done) :
    m.coverAt (Patch.shift new (Text.clamp text done) q) = m.coverAt (Patch.shift new done q) := by
  rcases h.inside_or_pastEnd with hinside | hpast
  · rw [Text.clamp_of_inside hinside]
  · unfold Patch.shift
    split
    · -- on the line of the stop its last segment covers everything
      have hcover : ∀ c, (Text.clamp text done).column ≤ c →
          m.coverAt ⟨done.line, c⟩
            = ((m.line done.line).getLast?.map Segment.origin).getD none := by
        intro c hc
        exact Segment.cover_of_forall_le fun s hs => Nat.le_trans (hpast.segments s hs) hc
      rw [hpast.line, hcover _ (Nat.le_add_right _ _), hcover]
      exact Nat.le_trans (Nat.le_of_lt hpast.column) (Nat.le_add_right _ _)
    · rw [hpast.line]

/-! ## Reading a patch both ways -/

/-- It makes no difference at `q` whether the edit is read inside the text.  There its new text
takes the range `r`: if the edit starts outside, `q` is in front of that range, and if it stops
where that matters, `q` is in front of the end. -/
structure Spared (m : Mappings) (text : List Char) (q : Pos) (e : Edit) (r : Range) : Prop where
  start : ¬ Text.Inside text e.range.start → q < r.start
  stop : ¬ m.Settled text e.range.stop → q < r.stop

instance (m : Mappings) (text : List Char) (q : Pos) (e : Edit) (r : Range) :
    Decidable (m.Spared text q e r) :=
  decidable_of_iff ((¬ Text.Inside text e.range.start → q < r.start) ∧
      (¬ m.Settled text e.range.stop → q < r.stop))
    ⟨fun h => ⟨h.1, h.2⟩, fun h => ⟨h.start, h.stop⟩⟩

/-- A place that all edits spare is covered alike. -/
theorem cover_formerFrom_clamp {edits : List Edit} (hordered : Edit.Ordered edits)
    (hdone : ∀ e ∈ edits.head?, done ≤ e.range.start) (hsettled : m.Settled text done)
    (hq : new ≤ q)
    (hspared : ∀ x ∈ edits.zip
      (Patch.newRangesFrom (Text.clamp text done) new (edits.map (Edit.clamp text))),
      m.Spared text q x.1 x.2) :
    (Patch.formerFrom (Text.clamp text done) new q (edits.map (Edit.clamp text))).bind m.coverAt
      = (Patch.formerFrom done new q edits).bind m.coverAt := by
  -- both readings have written the same up to `new`, and have a settled stop behind them
  induction edits generalizing done new with
  | nil => exact hsettled.coverAt_shift
  | cons e rest ih =>
    have hle : done ≤ e.range.start := hdone e rfl
    have hspare := hspared _ List.mem_cons_self
    rw [List.map_cons, Patch.formerFrom, Patch.formerFrom]
    by_cases hinside : Text.Inside text e.range.start
    · -- the new text starts at the same place either way
      have hstart : Patch.shift (Text.clamp text done) new (e.clamp text).range.start
          = Patch.shift done new e.range.start :=
        calc
          Patch.shift (Text.clamp text done) new (Text.clamp text e.range.start)
              = Patch.shift (Text.clamp text done) new e.range.start := by
                rw [Text.clamp_of_inside hinside]
          _ = Patch.shift done new e.range.start := hsettled.shift_inside hinside hle
      rw [hstart]
      by_cases hbefore : q < Patch.shift done new e.range.start
      · rw [if_pos hbefore, if_pos hbefore]
        exact hsettled.coverAt_shift
      · rw [if_neg hbefore, if_neg hbefore]
        by_cases hwithin : q < e.newStop (Patch.shift done new e.range.start)
        · -- it is covered by nothing either way
          rw [Edit.newStop_clamp, if_pos hwithin, if_pos hwithin]
        · -- the edit has to stop where it does not matter, and the later edits decide
          have hstop : m.Settled text e.range.stop := by
            by_contra hunsettled
            have hlt := hspare.stop hunsettled
            rw [← hstart] at hwithin
            exact hwithin hlt
          rw [Edit.newStop_clamp, if_neg hwithin, if_neg hwithin]
          refine ih hordered.tail hordered.next hstop (Pos.not_lt.1 hwithin) fun x hx => ?_
          refine hspared x (List.mem_cons_of_mem _ ?_)
          rw [← hstart] at hx
          exact hx
    · -- the place is in front of the new text, and so it is if the edit is read as given
      have hbefore : q < Patch.shift (Text.clamp text done) new (e.clamp text).range.start :=
        hspare.start hinside
      have hbefore' : q < Patch.shift done new e.range.start :=
        Pos.lt_of_lt_of_le hbefore (hsettled.shift_clamp_le hle)
      rw [if_pos hbefore, if_pos hbefore']
      exact hsettled.coverAt_shift

end Mappings

/-- It makes no difference at `q` whether the patch is read inside the text. -/
def Patch.Undisturbed (p : Patch) (text : List Char) (m : Mappings) (q : Pos) : Prop :=
  ∀ x ∈ p.edits.zip (p.clamp text).newRanges, m.Spared text q x.1 x.2

instance (p : Patch) (text : List Char) (m : Mappings) (q : Pos) :
    Decidable (p.Undisturbed text m q) :=
  inferInstanceAs (Decidable (∀ x ∈ p.edits.zip (p.clamp text).newRanges, _))

namespace Mappings

variable {m : Mappings} {p : Patch} {text : List Char} {q : Pos}

theorem cover_former?_clamp (h : p.Undisturbed text m q) :
    ((p.clamp text).former? q).bind m.coverAt = (p.former? q).bind m.coverAt := by
  have hzero : Text.Inside text Pos.zero := Text.inside_zero text
  have hclamp : Text.clamp text Pos.zero = Pos.zero := Text.clamp_of_inside hzero
  -- both readings start in front of everything
  have hspared : ∀ x ∈ p.edits.zip
      (Patch.newRangesFrom (Text.clamp text Pos.zero) Pos.zero (p.edits.map (Edit.clamp text))),
      m.Spared text q x.1 x.2 := by
    rw [hclamp]
    exact h
  have hrun := cover_formerFrom_clamp p.ordered (fun e _ => Pos.zero_le e.range.start)
    (Or.inl hzero) (Pos.zero_le q) hspared
  rw [hclamp] at hrun
  exact hrun

/-- A deletion that stops behind the end of its line, and an insertion behind the end of the next
one. -/
def ragged : Patch :=
  ⟨[Edit.delete ⟨⟨0, 1⟩, ⟨0, 9⟩⟩, Edit.insert ⟨1, 7⟩ "X"], by decide⟩

/-- Two lines with an origin each, and one more in the middle of the second line. -/
def threeOrigins : Mappings :=
  [[⟨0, some ⟨0, 0, 0, none⟩⟩], [⟨0, some ⟨0, 1, 0, none⟩⟩, ⟨1, some ⟨0, 4, 0, none⟩⟩]]

/-- An insertion behind the end of a line. -/
def farInsert : Patch := ⟨[Edit.insert ⟨0, 5⟩ "X"], by decide⟩

/-- A line that comes from one place. -/
def oneOrigin : Mappings := [[⟨0, some ⟨0, 0, 0, none⟩⟩]]

end Mappings

end Retrace
