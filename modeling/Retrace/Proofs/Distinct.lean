import Mathlib.Data.List.Induction
import Mathlib.Data.List.Nodup

/-!
# Distinct — lists without repetitions, and pairs found by their keys

* `eraseDups_concat`, `nodup_eraseDups` — what is left of a list without its repetitions;
* `lookup_eq_none_iff_notMem`, `mem_iff_lookup` — what is found in a list of pairs for a key.
-/

namespace Retrace

variable {α β : Type} [DecidableEq α]

theorem eraseDups_concat (l : List α) (a : α) :
    (l ++ [a]).eraseDups = if a ∈ l then l.eraseDups else l.eraseDups ++ [a] := by
  have hone : [a].eraseDups = [a] := by
    rw [List.eraseDups_cons, List.filter_nil, List.eraseDups_nil]
  rw [List.eraseDups_append, List.cons_removeAll, List.nil_removeAll]
  by_cases ha : a ∈ l <;> simp [ha, hone]

theorem nodup_eraseDups (l : List α) : l.eraseDups.Nodup := by
  induction l using List.reverseRecOn with
  | nil => exact List.nodup_nil
  | append_singleton l a ih =>
    rw [eraseDups_concat]
    by_cases ha : a ∈ l
    · rwa [if_pos ha]
    · rw [if_neg ha]
      exact List.Nodup.append ih (List.nodup_singleton a)
        (List.disjoint_singleton.2 fun hmem => ha (List.mem_eraseDups.1 hmem))

theorem lookup_eq_none_iff_notMem {l : List (α × β)} {a : α} :
    l.lookup a = none ↔ a ∉ l.map Prod.fst := by
  rw [List.lookup_eq_none_iff, List.mem_map]
  constructor
  · rintro h ⟨entry, hentry, rfl⟩
    exact bne_iff_ne.1 (h entry hentry) rfl
  · exact fun h entry hentry => bne_iff_ne.2 fun heq => h ⟨entry, hentry, heq.symm⟩

/-- Without duplicates among the keys an entry is what is found for its key. -/
theorem mem_iff_lookup {l : List (α × β)} (h : (l.map Prod.fst).Nodup) {a : α} {b : β} :
    (a, b) ∈ l ↔ l.lookup a = some b := by
  induction l with
  | nil => simp
  | cons entry rest ih =>
    rcases entry with ⟨key, value⟩
    rw [List.map_cons, List.nodup_cons] at h
    rw [List.mem_cons, ih h.2]
    by_cases ha : a = key
    · subst ha
      simp [lookup_eq_none_iff_notMem.2 h.1, eq_comm]
    · have hne : (a == key) = false := beq_false_of_ne ha
      simp [List.lookup_cons, ha, hne]

end Retrace
