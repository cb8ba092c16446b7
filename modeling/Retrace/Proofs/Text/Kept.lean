import Retrace.Proofs.Text.Splice

/-!
# Kept — positions of a text that stay are positions of the edited text

* `Splice.moved_end` — the end of a text moves to the end of the edited text;
* `Splice.stop_le_end` — no edit reaches past the end;
* `Patch.inside_moved?` — a position inside the text that stays moves inside the edited text;
* `Text.lineCount_eq` — a text has as many lines as its end says.
-/

namespace Retrace

/-! ## Ends -/

namespace Pos

theorem after_line (p : Pos) (text : List Char) :
    (p.after text).line = p.line + text.count '\n' := by
  induction text generalizing p with
  | nil => rfl
  | cons c rest ih =>
    rw [after_cons, ih, List.count_cons]
    by_cases hc : c = '\n'
    · subst hc
      simp only [next, if_true, beq_self_eq_true]
      omega
    · simp [next, hc]

end Pos

namespace Text

/-- The last line is the one that reading the text leads to. -/
theorem lineCount_eq (text : List Char) : lineCount text = (Pos.zero.after text).line + 1 := by
  rw [lineCount, Pos.after_line, Pos.zero, Nat.zero_add]

end Text

namespace Splice

variable {p p' : Pos} {old new : List Char} {e : Edit} {edits : List Edit}

/-- The end of the text moves to the end of the edited text. -/
theorem moved_end (h : Splice p old edits new) :
    Patch.movedFrom p p' (p.after old) edits = some (p'.after new) := by
  induction h generalizing p' with
  | done p rest => rw [Patch.movedFrom, Patch.shift_after]
  | @edit p gap gone rest new e edits hstart hstop htail ih =>
    have hend : p.after (gap ++ (gone ++ rest)) = e.range.stop.after rest := by
      rw [hstop, Pos.after_append, Pos.after_append]
    have hnew : p'.after (gap ++ (e.text.toList ++ new))
        = (e.newStop (Patch.shift p p' e.range.start)).after new := by
      rw [hstart, Patch.shift_after, Edit.newStop, ← Pos.after_eq_endFrom, Pos.after_append,
        Pos.after_append]
    have hafter : e.range.stop ≤ e.range.stop.after rest := Pos.le_after _ rest
    have hforward : e.range.start ≤ e.range.stop := by
      rw [hstart, hstop]
      exact Pos.le_after _ gone
    rw [hend, hnew, Patch.movedFrom, if_neg (Pos.not_lt.2 (Pos.le_trans hforward hafter)),
      if_neg (Pos.not_lt.2 hafter)]
    exact ih

/-- No edit reaches past the end of the text. -/
theorem stop_le_end (h : Splice p old edits new) (he : e ∈ edits) : e.range.stop ≤ p.after old := by
  induction h with
  | done => cases he
  | @edit p gap gone rest new f edits hstart hstop htail ih =>
    have hend : p.after (gap ++ (gone ++ rest)) = f.range.stop.after rest := by
      rw [hstop, Pos.after_append, Pos.after_append]
    rw [hend]
    rcases List.mem_cons.1 he with rfl | hrest
    · exact Pos.le_after _ rest
    · exact ih hrest

end Splice

/-! ## Positions that stay -/

namespace Patch

variable {p : Patch} {text : List Char} {old new q q' : Pos} {e : Edit} {edits : List Edit}

/-- What an edit replaces goes nowhere. -/
theorem movedFrom_of_contains (hordered : Edit.Ordered edits) (he : e ∈ edits)
    (hq : e.range.Contains q) : movedFrom old new q edits = none := by
  induction edits generalizing old new with
  | nil => cases he
  | cons f rest ih =>
    rw [movedFrom]
    rcases List.mem_cons.1 he with rfl | hrest
    · rw [if_neg (Pos.not_lt.2 hq.1), if_pos hq.2]
    · -- a later edit lies behind the first one
      have hstop := Pos.le_trans (hordered.stop_le_start hrest) hq.1
      rw [if_neg (Pos.not_lt.2 (Pos.le_trans hordered.head hstop)), if_neg (Pos.not_lt.2 hstop)]
      exact ih hordered.tail hrest

/-- An edit whose bytes contain the end of a prefix contains the position of that end. -/
theorem contains_of_spanOf {a b : List Char} (hstart : Text.Inside (a ++ b) e.range.start)
    (hstop : Text.Inside (a ++ b) e.range.stop)
    (h : (Text.spanOf (a ++ b) e.range).Contains (Text.byteLength a)) :
    e.range.Contains (Pos.zero.after a) := by
  obtain ⟨s, s', hs, hspos⟩ := Text.exists_prefix_of_inside hstart
  obtain ⟨t, t', ht, htpos⟩ := Text.exists_prefix_of_inside hstop
  obtain ⟨hle, hlt⟩ := h
  simp only [Text.spanOf] at hle hlt
  constructor
  · rw [hs, hspos, Text.offsetOf_append] at hle
    obtain ⟨middle, rfl, -⟩ := Text.prefix_of_byteLength_le hs.symm hle
    rw [hspos, Pos.after_append]
    exact Pos.le_after _ middle
  · rw [ht, htpos, Text.offsetOf_append] at hlt
    obtain ⟨middle, hmiddle, rfl, -⟩ := Text.prefix_of_byteLength_lt ht hlt
    rw [htpos, Pos.after_append]
    exact Pos.lt_after _ hmiddle

/-- A position that stays moves from inside the text to inside the edited text. -/
theorem inside_moved? (hinside : p.InsideOf text) (hq : Text.Inside text q)
    (hmoved : p.moved? q = some q') : Text.Inside (applyFrom text 0 p.edits) q' := by
  obtain ⟨a, b, rfl, rfl⟩ := Text.exists_prefix_of_inside hq
  have hkept : ∀ e ∈ p.edits,
      ¬ (Text.spanOf (a ++ b) e.range).Contains (Text.byteLength a) := by
    intro e he hcontains
    have hpos := contains_of_spanOf (hinside e he).1 (hinside e he).2 hcontains
    rw [moved?, movedFrom_of_contains p.ordered he hpos] at hmoved
    cases hmoved
  obtain ⟨a', b', hnew, -, hplace⟩ := (splice_applyFrom hinside).moved [] hkept
  have heq : some q' = some (Pos.zero.after a') := hmoved.symm.trans (hplace Pos.zero)
  rw [hnew, Option.some.inj heq]
  exact Text.inside_after a' b'

end Patch

end Retrace
