import Retrace.Proofs.Text.Kept

/-!
# Clamp — positions outside a text stand for positions inside

Cutting a text at a position past the end of its line cuts it at that end, and a line past the last
one means the end of the text.  So every position stands for one inside: the last that is not past
it.

* `Text.clamp` — the position that a position stands for;
* `Text.le_clamp_iff` — a position inside is in front of the one exactly if it is in front of the
  other;
* `Patch.clamp` — a patch with all its positions inside;
* `Patch.clamp_apply` — it makes the same text.
-/

namespace Retrace

/-! ## The longest prefix in front of a position -/

namespace Text

variable {text : List Char} {p q : Pos} {c : Char}

/-- Where a position goes when a character that does not break the line is put in front of the
text. -/
def indent (p : Pos) : Pos := if p.line = 0 then ⟨0, p.column + 1⟩ else p

theorem indent_le_indent : indent p ≤ indent q ↔ p ≤ q := by
  rw [Pos.le_iff, Pos.le_iff]
  unfold indent
  by_cases hp : p.line = 0 <;> by_cases hq : q.line = 0
  · simp [hp, hq]
  · simp [hp, hq, Nat.pos_of_ne_zero hq]
  · simp [hp, hq]
  · simp [hp, hq]

theorem after_char_eq_indent (hc : c ≠ '\n') (front : List Char) :
    Pos.zero.after (c :: front) = indent (Pos.zero.after front) := after_char hc front

/-- No prefix of the text that does not reach past `p` is longer than `front`. -/
structure Longest (text : List Char) (p : Pos) (front : List Char) : Prop where
  isPrefix : ∃ back, text = front ++ back
  le_iff : ∀ a b, text = a ++ b → (Pos.zero.after a ≤ p ↔ Pos.zero.after a ≤ Pos.zero.after front)

namespace Longest

variable {front : List Char}

/-- Only the empty prefix does not reach past a position in front of all others. -/
theorem empty (h : ∀ d a b, text = d :: a ++ b → ¬ Pos.zero.after (d :: a) ≤ p) :
    Longest text p [] := by
  refine ⟨⟨text, rfl⟩, ?_⟩
  intro a b htext
  cases a with
  | nil => exact ⟨fun _ => Pos.le_refl _, fun _ => Pos.zero_le p⟩
  | cons d a =>
    constructor
    · intro hle
      exact absurd hle (h d a b htext)
    · intro hle
      have hlt := Pos.lt_after Pos.zero (List.cons_ne_nil d a)
      exact absurd (Pos.lt_of_lt_of_le hlt hle) (Pos.lt_irrefl _)

theorem newline (h : Longest text p front) :
    Longest ('\n' :: text) ⟨p.line + 1, p.column⟩ ('\n' :: front) := by
  obtain ⟨back, rfl⟩ := h.isPrefix
  refine ⟨⟨back, rfl⟩, ?_⟩
  intro a b htext
  cases a with
  | nil => exact ⟨fun _ => Pos.zero_le _, fun _ => Pos.zero_le _⟩
  | cons d a =>
    obtain ⟨rfl, hrest⟩ := List.cons.inj htext
    have hiff := h.le_iff a b hrest
    rw [after_newline, after_newline]
    simp only [Pos.le_iff] at hiff ⊢
    omega

theorem char (hc : c ≠ '\n') (h : Longest text p front) :
    Longest (c :: text) (indent p) (c :: front) := by
  obtain ⟨back, rfl⟩ := h.isPrefix
  refine ⟨⟨back, rfl⟩, ?_⟩
  intro a b htext
  cases a with
  | nil => exact ⟨fun _ => Pos.zero_le _, fun _ => Pos.zero_le _⟩
  | cons d a =>
    obtain ⟨rfl, hrest⟩ := List.cons.inj htext
    rw [after_char_eq_indent hc, after_char_eq_indent hc, indent_le_indent, indent_le_indent]
    exact h.le_iff a b hrest

end Longest

/-- An offset is the end of the longest prefix that does not reach past the position. -/
theorem exists_longest (text : List Char) (p : Pos) :
    ∃ front, Longest text p front ∧ offsetOf text p = byteLength front := by
  fun_induction offsetOf text p with
  | case1 p =>
    refine ⟨[], .empty fun d a b h => ?_, rfl⟩
    cases h
  | case2 c cs =>
    refine ⟨[], .empty fun d a b _ hle => ?_, rfl⟩
    exact Pos.lt_irrefl _ (Pos.lt_of_lt_of_le (Pos.lt_after Pos.zero (List.cons_ne_nil d a)) hle)
  | case3 cs k =>
    -- the first line is empty, and every other prefix reaches past it
    refine ⟨[], .empty fun d a b h hle => ?_, rfl⟩
    obtain ⟨rfl, -⟩ := List.cons.inj h
    rw [after_newline, Pos.le_iff] at hle
    simp only at hle
    omega
  | case4 c cs k hc ih =>
    obtain ⟨front, hlongest, hoffset⟩ := ih
    exact ⟨c :: front, hlongest.char hc, by rw [hoffset, byteLength_cons]⟩
  | case5 c cs l k ih₁ ih₂ =>
    by_cases hc : c = '\n'
    · subst hc
      obtain ⟨front, hlongest, hoffset⟩ := ih₁
      exact ⟨'\n' :: front, hlongest.newline, by rw [if_pos rfl, hoffset, byteLength_cons]⟩
    · obtain ⟨front, hlongest, hoffset⟩ := ih₂
      exact ⟨c :: front, hlongest.char hc, by rw [if_neg hc, hoffset, byteLength_cons]⟩

/-! ## Clamping -/

/-- The position inside the text at which cutting at `p` cuts. -/
def clamp (text : List Char) (p : Pos) : Pos := posOf text (offsetOf text p)

theorem exists_clamp (text : List Char) (p : Pos) :
    ∃ front, Longest text p front ∧ offsetOf text p = byteLength front ∧
      clamp text p = Pos.zero.after front := by
  obtain ⟨front, hlongest, hoffset⟩ := exists_longest text p
  obtain ⟨back, rfl⟩ := hlongest.isPrefix
  exact ⟨front, hlongest, hoffset, by rw [clamp, hoffset, posOf_append]⟩

theorem inside_clamp (text : List Char) (p : Pos) : Inside text (clamp text p) := by
  obtain ⟨front, hlongest, -, hclamp⟩ := exists_clamp text p
  obtain ⟨back, rfl⟩ := hlongest.isPrefix
  rw [hclamp]
  exact inside_after front back

/-- Positions inside the text lie in front of a position exactly if they lie in front of the one it
stands for. -/
theorem le_clamp_iff (hq : Inside text q) : q ≤ clamp text p ↔ q ≤ p := by
  obtain ⟨front, hlongest, -, hclamp⟩ := exists_clamp text p
  obtain ⟨a, b, htext, rfl⟩ := exists_prefix_of_inside hq
  rw [hclamp]
  exact (hlongest.le_iff a b htext).symm

theorem clamp_le (text : List Char) (p : Pos) : clamp text p ≤ p :=
  (le_clamp_iff (inside_clamp text p)).1 (Pos.le_refl _)

/-- A position inside the text stands for itself. -/
theorem clamp_of_inside (h : Inside text p) : clamp text p = p :=
  Pos.le_antisymm (clamp_le text p) ((le_clamp_iff h).2 (Pos.le_refl p))

theorem clamp_le_clamp (text : List Char) (h : p ≤ q) : clamp text p ≤ clamp text q :=
  (le_clamp_iff (inside_clamp text p)).2 (Pos.le_trans (clamp_le text p) h)

/-- Cutting at a position and at the one it stands for is the same. -/
theorem offsetOf_clamp (text : List Char) (p : Pos) :
    offsetOf text (clamp text p) = offsetOf text p := by
  obtain ⟨front, hlongest, hoffset, hclamp⟩ := exists_clamp text p
  obtain ⟨back, rfl⟩ := hlongest.isPrefix
  rw [hclamp, hoffset, offsetOf_append]

end Text

/-! ## Patches with all positions inside -/

namespace Edit

/-- The edit between the positions that its own stand for. -/
def clamp (text : List Char) (e : Edit) : Edit :=
  ⟨⟨Text.clamp text e.range.start, Text.clamp text e.range.stop⟩, e.text⟩

theorem spanOf_clamp (text : List Char) (e : Edit) :
    Text.spanOf text (e.clamp text).range = Text.spanOf text e.range := by
  rw [Text.spanOf, Text.spanOf, clamp, Text.offsetOf_clamp, Text.offsetOf_clamp]

/-- The new text is the same. -/
theorem newStop_clamp (text : List Char) (e : Edit) (p : Pos) :
    (e.clamp text).newStop p = e.newStop p := rfl

/-- Edits stay in order. -/
theorem Ordered.clamp {edits : List Edit} (text : List Char) (h : Ordered edits) :
    Ordered (edits.map (Edit.clamp text)) := by
  induction edits with
  | nil => trivial
  | cons e rest ih =>
    refine Ordered.cons (Text.clamp_le_clamp text h.head) (ih h.tail) ?_
    intro f hf
    cases rest with
    | nil => cases hf
    | cons g rest =>
      cases hf
      exact Text.clamp_le_clamp text h.2.1

end Edit

namespace Patch

/-- The patch whose edits stand between the positions that those of `p` stand for. -/
def clamp (p : Patch) (text : List Char) : Patch :=
  ⟨p.edits.map (Edit.clamp text), p.ordered.clamp text⟩

theorem applyFrom_clamp (text : List Char) (done : Nat) (edits : List Edit) :
    applyFrom text done (edits.map (Edit.clamp text)) = applyFrom text done edits := by
  induction edits generalizing done with
  | nil => rfl
  | cons e rest ih =>
    rw [List.map_cons, applyFrom, applyFrom, Edit.spanOf_clamp, ih]
    rfl

/-- Both patches make the same text. -/
theorem clamp_apply (p : Patch) (text : String) : (p.clamp text.toList).apply text = p.apply text :=
  congrArg String.ofList (applyFrom_clamp text.toList 0 p.edits)

end Patch

end Retrace
