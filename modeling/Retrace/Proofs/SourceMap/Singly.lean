import Retrace.Proofs.Result
import Retrace.Proofs.SourceMap.Described
import Retrace.Proofs.SourceMap.Inserted

/-!
# Singly — the edits of a patch, carried out one by one

A patch may be carried out one edit after another, if the last one comes first: an edit leaves every
position in front of it where it is.  The mappings that result differ from those that the whole
patch gives, since each step leaves marks of its own, but every lookup answers alike.

* `Patch.apply_cons` — the texts;
* `Mappings.Follows` — what an intermediate result has to be for the next step;
* `Mappings.Follows.step`, `Mappings.follows_applySingly` — one edit, and all of them;
* `Mappings.lookup_applySingly` — the lookups.
-/

namespace Retrace

/-! ## Texts -/

namespace Splice

variable {old new : List Char} {e : Edit} {edits : List Edit}

/-- The first edit starts and stops inside the text. -/
theorem inside_first (h : Splice Pos.zero old (e :: edits) new) :
    Text.Inside old e.range.start ∧ Text.Inside old e.range.stop := by
  cases h with
  | @edit _ gap gone rest new _ _ hstart hstop htail =>
    constructor
    · rw [hstart]
      exact Text.inside_after gap _
    · rw [hstop, ← Pos.after_append, ← List.append_assoc]
      exact Text.inside_after (gap ++ gone) rest

/-- The later edits may be carried out first. -/
theorem last_first (h : Splice Pos.zero old (e :: edits) new) :
    ∃ mid, Splice Pos.zero old edits mid ∧ Splice Pos.zero mid [e] new := by
  cases h with
  | @edit _ gap gone rest new _ _ hstart hstop htail =>
    refine ⟨gap ++ (gone ++ new), ?_, ?_⟩
    · -- both what stays and what goes is in front of them
      rw [hstop] at htail
      exact htail.prepend.prepend
    · exact .edit hstart hstop (.done _ new)

end Splice

namespace Edit

theorem Ordered.drop {edits : List Edit} (h : Ordered edits) (k : Nat) :
    Ordered (edits.drop k) := by
  induction k generalizing edits with
  | zero => exact h
  | succ k ih =>
    cases edits with
    | nil => trivial
    | cons e rest => exact ih h.tail

end Edit

namespace Patch

variable {e : Edit} {edits : List Edit}

/-- The patch of a single edit. -/
theorem single_eq_ok (h : Edit.Ordered [e]) : single e = .ok ⟨[e], h⟩ := ofEdits_eq_ok.2 rfl

/-- Carrying out the later edits first makes the same text, and the first one is inside the text
that they leave. -/
theorem apply_cons {text : String} (hordered : Edit.Ordered (e :: edits))
    (hinside : InsideOf ⟨e :: edits, hordered⟩ text.toList) :
    InsideOf ⟨[e], hordered.alone⟩ (apply ⟨edits, hordered.tail⟩ text).toList ∧
      apply ⟨[e], hordered.alone⟩ (apply ⟨edits, hordered.tail⟩ text)
        = apply ⟨e :: edits, hordered⟩ text := by
  obtain ⟨mid, hlater, hfirst⟩ := (splice_applyFrom hinside).last_first
  have hmid : (apply ⟨edits, hordered.tail⟩ text).toList = mid := by
    rw [toList_apply]
    exact Splice.applyFrom_eq [] hlater
  constructor
  · intro f hf
    rw [List.mem_singleton.1 hf, hmid]
    exact hfirst.inside_first
  · calc
      apply ⟨[e], hordered.alone⟩ (apply ⟨edits, hordered.tail⟩ text)
          = String.ofList (applyFrom (apply ⟨edits, hordered.tail⟩ text).toList 0 [e]) := rfl
      _ = String.ofList (applyFrom mid 0 [e]) := by rw [hmid]
      _ = apply ⟨e :: edits, hordered⟩ text :=
            congrArg String.ofList (Splice.applyFrom_eq [] hfirst)

/-- The patch without its first `k` edits. -/
def drop (p : Patch) (k : Nat) : Patch := ⟨p.edits.drop k, p.ordered.drop k⟩

end Patch

/-! ## Mappings -/

namespace Mappings

/-- Carries out edits on mappings and text, one by one from the last to the first. -/
def applySingly (m : Mappings) (text : String) :
    List Edit → Except Patch.Fault (Mappings × String)
  | [] => .ok (m, text)
  | e :: rest => do
    let (m', text') ← applySingly m text rest
    let p ← Patch.single e
    pure (m'.applyPatch p, p.apply text')

theorem applySingly_cons {m m' : Mappings} {text text' : String} {e : Edit} {edits : List Edit}
    (h : m.applySingly text edits = .ok (m', text')) (hone : Edit.Ordered [e]) :
    m.applySingly text (e :: edits)
      = .ok (m'.applyPatch ⟨[e], hone⟩, Patch.apply ⟨[e], hone⟩ text') := by
  simp only [applySingly, h, Except.ok_bind, Patch.single_eq_ok hone]
  rfl

/-- What the mappings `m'` are once edits have been carried out on `m` and the text has become `new`:
a place is covered as the position was that has moved there, and every segment starts inside the
text or where an old one has moved. -/
structure Follows (m : Mappings) (edits : List Edit) (new : List Char) (m' : Mappings) : Prop where
  sorted : m'.Sorted
  coverAt : ∀ q, m'.coverAt q = (Patch.formerFrom Pos.zero Pos.zero q edits).bind m.coverAt
  placed : ∀ i, ∀ s ∈ m'.line i, Text.Inside new ⟨i, s.column⟩ ∨
    ∃ j, ∃ t ∈ m.line j,
      Patch.movedFrom Pos.zero Pos.zero ⟨j, t.column⟩ edits = some ⟨i, s.column⟩

variable {m m' : Mappings} {p : Patch} {text : List Char} {e : Edit} {edits : List Edit}

/-- Without edits nothing changes. -/
theorem follows_nil (hsorted : m.Sorted) (text : List Char) : m.Follows [] text m := by
  refine ⟨hsorted, ?_, ?_⟩
  · intro q
    rw [Patch.formerFrom, Patch.shift_same (Pos.zero_le q), Option.bind_some]
  · intro i s hs
    exact Or.inr ⟨i, s, hs, congrArg some (Patch.shift_same (Pos.zero_le _))⟩

namespace Follows

/-- The first edit has room in what the later ones leave. -/
theorem roomy (h : m.Follows edits text m') (hordered : Edit.Ordered (e :: edits))
    (hinside : Patch.InsideOf ⟨[e], hordered.alone⟩ text)
    (hfits : Text.Fits (Patch.applyFrom text 0 [e])) (hroomy : m.Roomy ⟨e :: edits, hordered⟩) :
    m'.Roomy ⟨[e], hordered.alone⟩ := by
  intro i s hs q hq
  rcases h.placed i s hs with hnew | ⟨j, t, ht, hmoved⟩
  · -- a place in the text, which has 32-bit columns still
    exact (hfits q (Patch.inside_moved? hinside hnew hq)).2
  · -- an old segment, which all edits together move to the same place
    refine hroomy j t ht q ?_
    rw [Patch.moved?, Patch.movedFrom_cons hordered, hmoved]
    exact hq

/-- One more edit, in front of the others. -/
theorem step (h : m.Follows edits text m') (hordered : Edit.Ordered (e :: edits))
    (hinside : Patch.InsideOf ⟨[e], hordered.alone⟩ text)
    (hfits : Text.Fits (Patch.applyFrom text 0 [e])) (hroomy : m.Roomy ⟨e :: edits, hordered⟩) :
    m.Follows (e :: edits) (Patch.applyFrom text 0 [e]) (m'.applyPatch ⟨[e], hordered.alone⟩) := by
  have hroom := h.roomy hordered hinside hfits hroomy
  refine ⟨sorted_applyPatch h.sorted hroom, ?_, ?_⟩
  · intro q
    calc
      (m'.applyPatch ⟨[e], hordered.alone⟩).coverAt q
          = (Patch.formerFrom Pos.zero Pos.zero q [e]).bind m'.coverAt :=
            coverAt_applyPatch_eq h.sorted hroom q
      _ = (Patch.formerFrom Pos.zero Pos.zero q [e]).bind fun q' =>
            (Patch.formerFrom Pos.zero Pos.zero q' edits).bind m.coverAt :=
            congrArg _ (funext h.coverAt)
      _ = (Patch.formerFrom Pos.zero Pos.zero q (e :: edits)).bind m.coverAt := by
            rw [Patch.formerFrom_cons hordered, Option.bind_assoc]
  · intro i s hs
    rcases mem_line_applyPatch h.sorted hroom hinside hs with hnew | ⟨j, t, ht, hmoved⟩
    · exact Or.inl hnew
    · -- a segment of the intermediate mappings, placed by the edits before or by this one
      rcases h.placed j t ht with hold | ⟨k, u, hu, hbefore⟩
      · exact Or.inl (Patch.inside_moved? hinside hold hmoved)
      · refine Or.inr ⟨k, u, hu, ?_⟩
        rw [Patch.movedFrom_cons hordered, hbefore]
        exact hmoved

end Follows

/-- Carrying out the edits of a patch one by one succeeds. -/
theorem follows_applySingly {text : String} (hsorted : m.Sorted)
    (hinside : p.InsideOf text.toList)
    (hfits : ∀ k ≤ p.edits.length, Text.Fits ((p.drop k).apply text).toList)
    (hroomy : ∀ k ≤ p.edits.length, m.Roomy (p.drop k)) :
    ∃ m', m.applySingly text p.edits = .ok (m', p.apply text) ∧
      m.Follows p.edits (p.apply text).toList m' := by
  obtain ⟨edits, hordered⟩ := p
  induction edits with
  | nil =>
    have htext : Patch.apply ⟨[], hordered⟩ text = text := by
      rw [Patch.apply, Patch.applyFrom, Text.dropBytes_zero, String.ofList_toList]
    rw [htext]
    exact ⟨m, rfl, follows_nil hsorted text.toList⟩
  | cons e rest ih =>
    -- the later edits have been carried out already, and `e` comes on top of what they leave
    obtain ⟨m', hrun, hfollows⟩ := ih hordered.tail
      (fun f hf => hinside f (List.mem_cons_of_mem e hf))
      (fun k hk => hfits (k + 1) (Nat.succ_le_succ hk))
      (fun k hk => hroomy (k + 1) (Nat.succ_le_succ hk))
    obtain ⟨hfirst, htext⟩ := Patch.apply_cons hordered hinside
    have hnew : (Patch.apply ⟨e :: rest, hordered⟩ text).toList
        = Patch.applyFrom (Patch.apply ⟨rest, hordered.tail⟩ text).toList 0 [e] := by
      rw [← htext, Patch.toList_apply]
    have hfits' := hfits 0 (Nat.zero_le _)
    have hstep := hfollows.step hordered hfirst (hnew ▸ hfits') (hroomy 0 (Nat.zero_le _))
    rw [← hnew] at hstep
    refine ⟨_, ?_, hstep⟩
    rw [applySingly_cons hrun hordered.alone, htext]

/-- A patch and its edits one by one make the same text, and lookups in both mappings give the same
answers, as long as lines and columns stay 32-bit numbers whenever some of the edits are still to
come. -/
theorem lookup_applySingly {text : String} (hsorted : m.Sorted) (hinside : p.InsideOf text.toList)
    (hfits : ∀ k ≤ p.edits.length, Text.Fits ((p.drop k).apply text).toList)
    (hroomy : ∀ k ≤ p.edits.length, m.Roomy (p.drop k)) :
    ∃ m', m.applySingly text p.edits = .ok (m', p.apply text) ∧
      ∀ q : Pos, m'.lookup q.line q.column = (m.applyPatch p).lookup q.line q.column := by
  have hroom : m.Roomy p := hroomy 0 (Nat.zero_le _)
  obtain ⟨m', hrun, hfollows⟩ := follows_applySingly hsorted hinside hfits hroomy
  refine ⟨m', hrun, ?_⟩
  intro q
  calc
    m'.lookup q.line q.column
        = m'.coverAt q := lookup_eq_coverAt hfollows.sorted q
    _ = (p.former? q).bind m.coverAt := hfollows.coverAt q
    _ = (m.applyPatch p).coverAt q := (coverAt_applyPatch_eq hsorted hroom q).symm
    _ = (m.applyPatch p).lookup q.line q.column :=
          (lookup_eq_coverAt (sorted_applyPatch hsorted hroom) q).symm

/-- A text with a line break, a deletion that touches it and joins two lines, and a letter in what
used to be the second one. -/
def rejoined : Patch :=
  ⟨[Edit.insert ⟨0, 1⟩ "x\n", Edit.delete ⟨⟨0, 1⟩, ⟨1, 0⟩⟩, Edit.insert ⟨1, 1⟩ "y"], by decide⟩

theorem lookup_applySingly_rejoined :
    ∃ m', twoLines.applySingly "ab\ncd" rejoined.edits = .ok (m', "ax\ncyd") ∧
      m'.lookup 1 2 = some ⟨0, 1, 1, none⟩ := by
  have hsorted : twoLines.Sorted := by decide
  have hinside : rejoined.InsideOf "ab\ncd".toList := by decide
  have hshort : ∀ k ≤ rejoined.edits.length,
      ((rejoined.drop k).apply "ab\ncd").toList.length < 0x100000000 := by decide
  have hroomy : ∀ k ≤ rejoined.edits.length, twoLines.Roomy (rejoined.drop k) := by decide
  have hnew : rejoined.apply "ab\ncd" = "ax\ncyd" := by decide
  obtain ⟨m', hrun, hlookup⟩ := lookup_applySingly hsorted hinside
    (fun k hk => Text.fits_of_length_lt (hshort k hk)) hroomy
  rw [hnew] at hrun
  refine ⟨m', hrun, ?_⟩
  rw [hlookup ⟨1, 2⟩]
  decide

end Mappings

end Retrace
