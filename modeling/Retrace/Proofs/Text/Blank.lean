import Mathlib.Data.List.DropRight
import Retrace.Text.Blank

/-!
# Blank — cutting a text where its ends change

* `Blank.startWhile_iff`, `Blank.endWhile_iff` — where the characters at an end of a text that satisfy
  a predicate stop is settled by the characters around the cut;
* `Blank.trim_eq_self` — a text without white space has none at its ends.
-/

namespace Retrace.Blank

variable {p : Char → Bool} {text front back : List Char}

theorem startWhile_iff :
    text.takeWhile p = front ∧ text.dropWhile p = back ↔
      text = front ++ back ∧ (∀ c ∈ front, p c = true) ∧ ∀ c ∈ back.head?, p c = false := by
  constructor
  · rintro ⟨rfl, rfl⟩
    refine ⟨List.takeWhile_append_dropWhile.symm, fun c hc => List.mem_takeWhile_imp hc, ?_⟩
    intro c hc
    have hhead := List.head?_dropWhile_not p text
    rw [Option.mem_def.1 hc] at hhead
    exact hhead
  · rintro ⟨rfl, hfront, hback⟩
    rw [List.takeWhile_append_of_pos hfront, List.dropWhile_append_of_pos hfront]
    cases back with
    | nil => exact ⟨List.append_nil front, rfl⟩
    | cons c back =>
      have hc : ¬ p c = true := Bool.eq_false_iff.1 (hback c rfl)
      rw [List.takeWhile_cons_of_neg hc, List.dropWhile_cons_of_neg hc]
      exact ⟨List.append_nil front, rfl⟩

/-- The end of a text is the start of the text in reverse. -/
theorem endWhile_iff :
    dropEndWhile p text = front ∧ takeEndWhile p text = back ↔
      text = front ++ back ∧ (∀ c ∈ front.getLast?, p c = false) ∧ ∀ c ∈ back, p c = true := by
  have hcut := @startWhile_iff p text.reverse back.reverse front.reverse
  have htext : text.reverse = back.reverse ++ front.reverse ↔ text = front ++ back := by
    rw [← List.reverse_append, List.reverse_inj]
  rw [htext, List.head?_reverse] at hcut
  simp only [List.mem_reverse] at hcut
  rw [dropEndWhile, takeEndWhile, List.reverse_eq_iff, List.reverse_eq_iff, and_comm, hcut]
  exact and_congr_right fun _ => and_comm

/-- A text without white space has none at its ends. -/
theorem trim_eq_self (h : ∀ c ∈ text, isSpace c = false) : trim text = text := by
  have hstart : text.dropWhile isSpace = text :=
    (startWhile_iff.2 ⟨(List.nil_append text).symm, fun c hc => absurd hc List.not_mem_nil,
      fun c hc => h c (List.mem_of_head? hc)⟩).2
  have hend : dropEndWhile isSpace text = text :=
    (endWhile_iff.2 ⟨(List.append_nil text).symm, fun c hc => h c (List.mem_of_getLast? hc),
      fun c hc => absurd hc List.not_mem_nil⟩).1
  rw [trim, hstart, hend]

end Retrace.Blank
