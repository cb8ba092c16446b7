import Retrace.Text.Patch

/-!
# Measure — reading a text moves a position by its extent

Extents form a monoid that measures concatenation, and this monoid acts on positions.  Reading a
text character by character is the action of its extent.

* `Extent.ofText_append` — a text is measured part by part;
* `Extent.between_endFrom`, `Extent.endFrom_between` — the extent that leads from one position to
  another;
* `Extent.add_gap` — the extent that is missing from one to another;
* `Extent.measures_and_moves` — all of these laws;
* `Pos.after` — the position reached by reading a text;
* `Pos.after_eq_endFrom` — reading a text is the action of its extent;
* `Patch.shift_after`, `Patch.shift_shift` — carrying a position over commutes with reading on.
-/

namespace Retrace

/-! ## The monoid of extents -/

namespace Extent

variable {a b c : Extent}

@[simp] theorem add_zero (a : Extent) : a.add zero = a := by
  simp [add, zero]

@[simp] theorem zero_add (a : Extent) : zero.add a = a := by
  by_cases h : a.lines = 0
  · ext <;> simp [add, zero, h]
  · ext <;> simp [add, zero, h]

theorem add_assoc (a b c : Extent) : (a.add b).add c = a.add (b.add c) := by
  by_cases hc : c.lines = 0
  · by_cases hb : b.lines = 0
    · simp [add, hb, hc, Nat.add_assoc]
    · simp [add, hb, hc]
  · have hbc : b.lines + c.lines ≠ 0 := by omega
    by_cases hb : b.lines = 0
    · simp [add, hb, hc]
    · simp [add, hb, hc, Nat.add_assoc]

/-- One more character is the extent of that character at the end. -/
theorem push_eq_add (e : Extent) (ch : Char) : e.push ch = e.add (zero.push ch) := by
  by_cases h : ch = '\n' <;> simp [push, add, zero, h]

theorem foldl_push (e : Extent) (text : List Char) :
    text.foldl push e = e.add (ofText text) := by
  induction text generalizing e with
  | nil => simp [ofText]
  | cons ch rest ih =>
    have hofText : ofText (ch :: rest) = (zero.push ch).add (ofText rest) := ih (zero.push ch)
    rw [List.foldl_cons, ih, hofText, ← add_assoc, ← push_eq_add]

/-- The extent of a text is the sum of the extents of its parts. -/
theorem ofText_append (front back : List Char) :
    ofText (front ++ back) = (ofText front).add (ofText back) := by
  rw [ofText, List.foldl_append, foldl_push]
  rfl

theorem ofText_cons (ch : Char) (rest : List Char) :
    ofText (ch :: rest) = (zero.push ch).add (ofText rest) := foldl_push (zero.push ch) rest

@[simp] theorem ofText_nil : ofText [] = zero := rfl

/-! ## The action on positions -/

@[simp] theorem endFrom_zero (p : Pos) : zero.endFrom p = p := rfl

/-- Moving on by two extents is moving on by their sum. -/
theorem endFrom_add (a b : Extent) (p : Pos) : (a.add b).endFrom p = b.endFrom (a.endFrom p) := by
  by_cases hb : b.lines = 0
  · by_cases ha : a.lines = 0
    · simp [add, endFrom, ha, hb, Nat.add_assoc]
    · simp [add, endFrom, ha, hb]
  · have hab : a.lines + b.lines ≠ 0 := by omega
    by_cases ha : a.lines = 0
    · simp [add, endFrom, ha, hb]
    · simp [add, endFrom, ha, hb, Nat.add_assoc]

theorem endFrom_push (p : Pos) (ch : Char) : (zero.push ch).endFrom p = p.next ch := by
  by_cases h : ch = '\n' <;> simp [push, zero, endFrom, Pos.next, h]

theorem le_endFrom (e : Extent) (p : Pos) : p ≤ e.endFrom p := by
  rw [Pos.le_iff]
  by_cases h : e.lines = 0
  · exact Or.inr (by simp [endFrom, h])
  · exact Or.inl (by simp only [endFrom, h, if_false]; omega)

/-! ## What leads from one position or extent to another -/

/-- What leads from a position to the end of a text that starts there is the extent of the text. -/
theorem between_endFrom (p : Pos) (e : Extent) : between p (e.endFrom p) = e := by
  rcases e with ⟨lines, columns⟩
  by_cases h : lines = 0
  · simp [between, endFrom, h]
  · simp [between, endFrom, h]

/-- What is between two positions leads from the one to the other. -/
theorem endFrom_between {p q : Pos} (h : p ≤ q) : (between p q).endFrom p = q := by
  rw [Pos.le_iff] at h
  by_cases hline : p.line = q.line
  · have hcolumn : p.column + (q.column - p.column) = q.column := by omega
    simp [between, endFrom, hline, hcolumn]
  · -- there are line breaks on the way, so the columns are those of `q`
    have hbreaks : q.line - p.line ≠ 0 := by omega
    have hlines : p.line + (q.line - p.line) = q.line := by omega
    simp [between, endFrom, hline, hbreaks, hlines]

theorem le_iff : a ≤ b ↔ a.lines < b.lines ∨ (a.lines = b.lines ∧ a.columns ≤ b.columns) := Iff.rfl

theorem not_lt : ¬ b < a ↔ a ≤ b := by
  have hlt : b < a ↔ b.lines < a.lines ∨ (b.lines = a.lines ∧ b.columns < a.columns) := Iff.rfl
  rw [hlt, le_iff]
  omega

/-- What is missing from one extent to another, added to the one, gives the other. -/
theorem add_gap (h : a ≤ b) : a.add (gap a b) = b := by
  have hforward : ¬ b < a := not_lt.2 h
  rw [le_iff] at h
  by_cases hlines : a.lines = b.lines
  · have hcolumns : a.columns + (b.columns - a.columns) = b.columns := by omega
    simp [gap, add, hforward, hlines, hcolumns]
  · have hbreaks : b.lines - a.lines ≠ 0 := by omega
    have hsum : a.lines + (b.lines - a.lines) = b.lines := by omega
    simp [gap, add, hforward, hlines, hbreaks, hsum]

/-- Extents are a monoid that measures texts put together and that moves positions.  What leads from a
position to where an extent moves it is that extent, and what leads from a position to a later one
moves it there.  In the same way what is missing from an extent to a longer one makes up for it. -/
theorem measures_and_moves :
    (∀ s t : String, ofText (s ++ t).toList = (ofText s.toList).add (ofText t.toList)) ∧
      (∀ a b c : Extent, (a.add b).add c = a.add (b.add c)) ∧
      (∀ a : Extent, zero.add a = a ∧ a.add zero = a) ∧
      (∀ (a b : Extent) (p : Pos), b.endFrom (a.endFrom p) = (a.add b).endFrom p) ∧
      (∀ (e : Extent) (p : Pos), between p (e.endFrom p) = e) ∧
      (∀ p q : Pos, p ≤ q → (between p q).endFrom p = q) ∧
      (∀ a b : Extent, a ≤ b → a.add (gap a b) = b) := by
  refine ⟨?_, add_assoc, fun a => ⟨zero_add a, add_zero a⟩, ?_, fun e p => between_endFrom p e, ?_, ?_⟩
  · intro s t
    rw [String.toList_append, ofText_append]
  · intro a b p
    exact (endFrom_add a b p).symm
  · intro p q h
    exact endFrom_between h
  · intro a b h
    exact add_gap h

/-- A text of two lines and one of a single line, moved on from the middle of a line. -/
theorem measures_and_moves_twoLines :
    ofText ("é;\nab" ++ "cd").toList = add ⟨1, 2⟩ ⟨0, 2⟩ ∧
      (between ⟨3, 7⟩ ⟨5, 1⟩).endFrom ⟨3, 7⟩ = ⟨5, 1⟩ ∧
      (between ⟨3, 7⟩ ⟨3, 9⟩).endFrom ⟨3, 7⟩ = ⟨3, 9⟩ ∧
      add ⟨1, 4⟩ (gap ⟨1, 4⟩ ⟨3, 0⟩) = ⟨3, 0⟩ := by
  obtain ⟨hmeasure, -, -, -, -, hmove, hgap⟩ := measures_and_moves
  have hlater : (⟨3, 7⟩ : Pos) ≤ ⟨5, 1⟩ := by decide
  have hsame : (⟨3, 7⟩ : Pos) ≤ ⟨3, 9⟩ := by decide
  have hlonger : (⟨1, 4⟩ : Extent) ≤ ⟨3, 0⟩ := by decide
  exact ⟨hmeasure "é;\nab" "cd", hmove _ _ hlater, hmove _ _ hsame, hgap _ _ hlonger⟩

end Extent

/-! ## Reading on from a position -/

namespace Pos

theorem lt_irrefl (p : Pos) : ¬ p < p := not_lt.2 (le_refl p)

theorem le_of_lt {p q : Pos} (h : p < q) : p ≤ q := by
  rw [lt_iff] at h
  rw [le_iff]
  omega

theorem lt_of_lt_of_le {p q r : Pos} (h₁ : p < q) (h₂ : q ≤ r) : p < r := by
  rw [lt_iff] at *
  rw [le_iff] at h₂
  omega

theorem lt_of_le_of_lt {p q r : Pos} (h₁ : p ≤ q) (h₂ : q < r) : p < r := by
  rw [lt_iff] at *
  rw [le_iff] at h₁
  omega

theorem line_le_of_le {p q : Pos} (h : p ≤ q) : p.line ≤ q.line := by
  rw [le_iff] at h
  omega

theorem zero_le (p : Pos) : zero ≤ p := by
  rw [le_iff]
  simp only [zero]
  omega

/-- The position reached by reading `text` from `p` on. -/
def after (p : Pos) (text : List Char) : Pos := text.foldl next p

@[simp] theorem after_nil (p : Pos) : p.after [] = p := rfl

@[simp] theorem after_cons (p : Pos) (c : Char) (text : List Char) :
    p.after (c :: text) = (p.next c).after text := rfl

theorem after_append (p : Pos) (front back : List Char) :
    p.after (front ++ back) = (p.after front).after back := List.foldl_append

/-- Reading a text moves on by its extent. -/
theorem after_eq_endFrom (p : Pos) (text : List Char) :
    p.after text = (Extent.ofText text).endFrom p := by
  induction text generalizing p with
  | nil => rfl
  | cons c rest ih =>
    rw [after_cons, ih, Extent.ofText_cons, Extent.endFrom_add, Extent.endFrom_push]

theorem le_after (p : Pos) (text : List Char) : p ≤ p.after text := by
  rw [after_eq_endFrom]
  exact Extent.le_endFrom _ p

theorem lt_next (p : Pos) (c : Char) : p < p.next c := by
  rw [lt_iff]
  by_cases h : c = '\n' <;> simp [next, h]

/-- Reading a text moves on by at most its length. -/
theorem after_le_length (p : Pos) (text : List Char) :
    (p.after text).line ≤ p.line + text.length ∧
      (p.after text).column ≤ p.column + text.length := by
  induction text generalizing p with
  | nil => exact ⟨Nat.le_refl _, Nat.le_refl _⟩
  | cons c rest ih =>
    have hrest := ih (p.next c)
    rw [after_cons, List.length_cons]
    unfold next at hrest ⊢
    by_cases hc : c = '\n'
    · simp only [if_pos hc] at hrest ⊢
      omega
    · simp only [if_neg hc] at hrest ⊢
      omega

/-- Reading at least one character moves on. -/
theorem lt_after (p : Pos) {text : List Char} (h : text ≠ []) : p < p.after text := by
  cases text with
  | nil => exact absurd rfl h
  | cons c rest => exact lt_of_lt_of_le (lt_next p c) (le_after _ rest)

end Pos

/-! ## Carrying positions over -/

namespace Patch

@[simp] theorem shift_self (old new : Pos) : shift old new old = new := by
  simp [shift]

/-- Carrying over and reading on may be done in either order. -/
theorem shift_after (old new : Pos) (text : List Char) :
    shift old new (old.after text) = new.after text := by
  rw [Pos.after_eq_endFrom, Pos.after_eq_endFrom]
  by_cases h : (Extent.ofText text).lines = 0
  · simp [shift, Extent.endFrom, h]
  · simp only [shift, Extent.endFrom, h, if_false]
    rw [if_neg (by omega)]
    ext
    · simp only
      omega
    · rfl

/-- Carrying over keeps the order. -/
theorem le_shift {old new p : Pos} (h : old ≤ p) : new ≤ shift old new p := by
  rw [Pos.le_iff] at *
  by_cases hline : p.line = old.line
  · exact Or.inr (by simp [shift, hline])
  · refine Or.inl ?_
    simp only [shift, hline, if_false]
    omega

theorem shift_lt_shift {old new p q : Pos} (hp : old ≤ p) (hpq : p < q) :
    shift old new p < shift old new q := by
  rw [Pos.le_iff] at hp
  rw [Pos.lt_iff] at *
  by_cases h₁ : p.line = old.line <;> by_cases h₂ : q.line = old.line
  · simp only [shift, h₁, h₂, if_true, true_and]
    omega
  · simp only [shift, h₁, h₂, if_true, if_false]
    omega
  · omega
  · simp only [shift, h₁, h₂, if_false]
    omega

/-- A position on the way may be taken as the place from which to carry over. -/
theorem shift_shift {old new p q : Pos} (hp : old ≤ p) (hq : p ≤ q) :
    shift p (shift old new p) q = shift old new q := by
  rw [Pos.le_iff] at hp hq
  -- the columns move on the line of `old` alone, which `p` and `q` may have left already
  by_cases h₁ : p.line = old.line
  · by_cases h₂ : q.line = old.line
    · have hqp : q.line = p.line := by omega
      simp only [shift, h₁, h₂, if_true]
      ext
      · rfl
      · simp only
        omega
    · have hqp : q.line ≠ p.line := by omega
      simp only [shift, h₁, h₂, if_true, if_false]
  · have h₂ : q.line ≠ old.line := by omega
    by_cases h₃ : q.line = p.line
    · simp only [shift, h₁, h₃, if_true, if_false]
      ext
      · rfl
      · simp only
        omega
    · simp only [shift, h₁, h₂, h₃, if_false]
      ext
      · simp only
        omega
      · rfl

end Patch

end Retrace
