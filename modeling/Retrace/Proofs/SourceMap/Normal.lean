import Retrace.Proofs.Text.Clamp
import Retrace.Proofs.Text.Place
import Retrace.SourceMap.Guarded

/-!
# Normal — the normal form of a patch

A patch is in normal form if all its edits do something and there is old text between each and the
next.  Every patch has the same effect as its normal form, on any text and on any mappings.

* `Patch.Normal` — nothing to join and nothing to leave out;
* `Patch.Normal.normalize_eq_self` — such a patch is its own normal form;
* `Splice.normalizeFrom_clamp` — edits and their normal form make the same text, wherever their
  positions lie;
* `Patch.apply_normalize` — and so do patches;
* `Patch.normalize_acts_alike` — all that a normal form has of the patch and on its own.
-/

namespace Retrace

/-! ## Edits that do something -/

namespace Edit

variable {e f : Edit} {edits : List Edit}

/-- Joining cannot undo what an edit does. -/
theorem not_isEmpty_join (hordered : Ordered (e :: f :: edits))
    (htouch : e.range.stop = f.range.start) (he : ¬ e.IsEmpty) : ¬ (e.join f).IsEmpty := by
  rintro ⟨hrange, htext⟩
  rw [join_range hordered htouch] at hrange
  have hrange' : e.range.start = f.range.stop := hrange
  have hback : e.range.stop ≤ e.range.start := by
    rw [hrange', htouch]
    exact hordered.tail.head
  have hsplit : e.text ++ f.text = "" := htext
  exact he ⟨Pos.le_antisymm hordered.head hback, (String.append_eq_empty_iff.1 hsplit).1⟩

theorem IsEmpty.clamp (text : List Char) (h : e.IsEmpty) : (e.clamp text).IsEmpty :=
  ⟨congrArg (Text.clamp text) h.1, h.2⟩

/-- Edits that touch still touch where their positions stand for ones inside a text. -/
theorem clamp_join (text : List Char) (hordered : Ordered (e :: f :: edits))
    (htouch : e.range.stop = f.range.start) :
    (e.join f).clamp text = (e.clamp text).join (f.clamp text) := by
  have hclamped : Ordered (e.clamp text :: f.clamp text :: edits.map (clamp text)) :=
    hordered.clamp text
  have hrange := join_range hclamped (congrArg (Text.clamp text) htouch)
  rw [clamp, join_range hordered htouch]
  exact congrArg (Edit.mk · (e.text ++ f.text)) hrange.symm

end Edit

namespace Patch

variable {last : Edit} {edits : List Edit}

theorem not_isEmpty_normalizeFrom (hordered : Edit.Ordered (last :: edits))
    (hlast : ¬ last.IsEmpty) : ∀ e ∈ normalizeFrom last edits, ¬ e.IsEmpty := by
  fun_induction normalizeFrom last edits with
  | case1 last => exact List.forall_mem_singleton.2 hlast
  | case2 last e rest htouch ih =>
    exact ih (hordered.join htouch) (Edit.not_isEmpty_join hordered htouch hlast)
  | case3 last e rest htouch hempty ih => exact ih (hordered.skip hempty.1) hlast
  | case4 last e rest htouch hempty ih =>
    exact List.forall_mem_cons.2 ⟨hlast, ih hordered.tail hempty⟩

theorem not_isEmpty_normalizeEdits (hordered : Edit.Ordered edits) :
    ∀ e ∈ normalizeEdits edits, ¬ e.IsEmpty := by
  fun_induction normalizeEdits edits with
  | case1 => exact List.forall_mem_nil _
  | case2 e rest hempty ih => exact ih hordered.tail
  | case3 e rest hempty => exact not_isEmpty_normalizeFrom hordered hempty

/-! ## The normal form -/

/-- Every edit does something, and there is old text between each edit and the next. -/
structure Normal (p : Patch) : Prop where
  not_isEmpty : ∀ e ∈ p.edits, ¬ e.IsEmpty
  apart : Edit.Apart p.edits

theorem normal_normalize (p : Patch) : p.normalize.Normal :=
  ⟨not_isEmpty_normalizeEdits p.ordered, apart_normalize p⟩

theorem normalizeFrom_eq (hempty : ∀ e ∈ edits, ¬ e.IsEmpty) (hapart : Edit.Apart (last :: edits)) :
    normalizeFrom last edits = last :: edits := by
  induction edits generalizing last with
  | nil => rfl
  | cons e rest ih =>
    have hgap : last.range.stop ≠ e.range.start := by
      intro htouch
      have hlt := hapart.next e rfl
      rw [htouch] at hlt
      exact Pos.lt_irrefl _ hlt
    rcases List.forall_mem_cons.1 hempty with ⟨he, hrest⟩
    rw [normalizeFrom, if_neg hgap, if_neg he, ih hrest hapart.tail]

/-- There is nothing to do in a normal form. -/
theorem Normal.normalize_eq_self {p : Patch} (h : p.Normal) : p.normalize = p := by
  have hedits : normalizeEdits p.edits = p.edits := by
    obtain ⟨hempty, hapart⟩ := h
    cases hp : p.edits with
    | nil => rfl
    | cons e rest =>
      rw [hp] at hempty hapart
      rcases List.forall_mem_cons.1 hempty with ⟨he, hrest⟩
      rw [normalizeEdits, if_neg he, normalizeFrom_eq hrest hapart]
  exact ext_edits hedits

end Patch

/-! ## The same text -/

namespace Splice

variable {p : Pos} {old new : List Char} {last : Edit} {edits : List Edit}

/-- Each step towards the normal form does the same to a text, wherever the positions lie. -/
theorem normalizeFrom_clamp (text : List Char)
    (h : Splice p old ((last :: edits).map (Edit.clamp text)) new)
    (hordered : Edit.Ordered (last :: edits)) :
    Splice p old ((Patch.normalizeFrom last edits).map (Edit.clamp text)) new := by
  fun_induction Patch.normalizeFrom last edits generalizing p old new with
  | case1 last => exact h
  | case2 last e rest htouch ih =>
    refine ih ?_ (hordered.join htouch)
    rw [List.map_cons, Edit.clamp_join text hordered htouch]
    exact h.join (hordered.clamp text) (congrArg (Text.clamp text) htouch)
  | case3 last e rest htouch hempty ih =>
    exact ih (h.cons_congr fun htail => htail.skip (hempty.clamp text)) (hordered.skip hempty.1)
  | case4 last e rest htouch hempty ih =>
    exact h.cons_congr fun htail => ih htail hordered.tail

theorem normalizeEdits_clamp (text : List Char)
    (h : Splice p old (edits.map (Edit.clamp text)) new) (hordered : Edit.Ordered edits) :
    Splice p old ((Patch.normalizeEdits edits).map (Edit.clamp text)) new := by
  fun_induction Patch.normalizeEdits edits with
  | case1 => exact h
  | case2 e rest hempty ih => exact ih (h.skip (hempty.clamp text)) hordered.tail
  | case3 e rest hempty => exact h.normalizeFrom_clamp text hordered

end Splice

namespace Patch

/-- On any text a patch is carried out between the positions that its own stand for. -/
theorem splice_clamp (p : Patch) (text : List Char) :
    Splice Pos.zero text (p.edits.map (Edit.clamp text)) (applyFrom text 0 p.edits) := by
  have hinside : (p.clamp text).InsideOf text := by
    intro e he
    rcases List.mem_map.1 he with ⟨f, -, rfl⟩
    exact ⟨Text.inside_clamp text _, Text.inside_clamp text _⟩
  have hsplice := splice_applyFrom hinside
  rw [clamp, applyFrom_clamp] at hsplice
  exact hsplice

/-- A patch and its normal form make the same text. -/
theorem apply_normalize (p : Patch) (text : String) : p.normalize.apply text = p.apply text := by
  have hnormal := (p.splice_clamp text.toList).normalizeEdits_clamp text.toList p.ordered
  have happly : applyFrom text.toList 0 p.normalize.edits = applyFrom text.toList 0 p.edits := by
    rw [← applyFrom_clamp]
    exact hnormal.applyFrom_eq []
  exact congrArg String.ofList happly

/-- The normal form of a patch is a patch, in which each edit does something and starts behind the
end of the one before it.  It is its own normal form, and it makes the same of every text, also where
positions lie outside, and of all mappings, also where their lines are not sorted and columns are found
by halving. -/
theorem normalize_acts_alike (p : Patch) :
    ofEdits p.normalize.edits = .ok p.normalize ∧
      (∀ e ∈ p.normalize.edits, ¬ e.IsEmpty) ∧
      (p.normalize.edits.IsChain fun e f => e.range.stop < f.range.start) ∧
      p.normalize.normalize = p.normalize ∧
      (∀ text : String, p.normalize.apply text = p.apply text) ∧
      ∀ m : Mappings, m.applyPatch p.normalize = m.applyPatch p ∧
        m.applyPatch? p.normalize = m.applyPatch? p := by
  have hnormal := normal_normalize p
  have hagain := hnormal.normalize_eq_self
  have hmappings : ∀ m : Mappings, m.applyPatch p.normalize = m.applyPatch p ∧
      m.applyPatch? p.normalize = m.applyPatch? p := by
    -- mappings are patched with the normal form from the start
    intro m
    constructor
    · rw [Mappings.applyPatch, Mappings.applyPatch, hagain]
    · rw [Mappings.applyPatch?, Mappings.applyPatch?, hagain]
  exact ⟨ofEdits_edits p.normalize, hnormal.not_isEmpty, hnormal.apart, hagain, p.apply_normalize,
    hmappings⟩

end Patch

end Retrace
