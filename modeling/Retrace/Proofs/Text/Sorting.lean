import Retrace.Proofs.Text.Moved

/-!
# Sorting — edits in any order

Edits may be given in any order.  Sorting them by range puts them in the one order in which they can
make a patch, if there is one: an order that is accepted is sorted already, since each range ends
where the next starts or before.

* `Range.isLE_compare` — the order that edits are sorted by;
* `Edit.Reorders` — another order of the same edits, in which those of one range keep theirs;
* `Edit.reorders_sorted`, `Edit.eq_of_reorders` — sorting gives such an order, and it is the only
  sorted one;
* `Edit.ordered_iff` — the order of a patch, edit by edit;
* `Patch.ofUnsorted_reorders` — sorting succeeds if anything does, and the order given does not
  matter.
-/

namespace Retrace

/-! ## The order of ranges -/

namespace Pos

variable {p q : Pos}

theorem compare_eq_lt : compare p q = .lt ↔ p < q := by
  change (compare p.line q.line).then (compare p.column q.column) = .lt ↔ _
  rw [Ordering.then_eq_lt, Nat.compare_eq_lt, Nat.compare_eq_eq, Nat.compare_eq_lt, lt_iff]

theorem compare_eq_eq : compare p q = .eq ↔ p = q := by
  change (compare p.line q.line).then (compare p.column q.column) = .eq ↔ _
  rw [Ordering.then_eq_eq, Nat.compare_eq_eq, Nat.compare_eq_eq, Pos.ext_iff]

theorem isLE_compare : (compare p q).isLE ↔ p ≤ q := by
  rw [Ordering.isLE_iff_eq_lt_or_eq_eq, compare_eq_lt, compare_eq_eq]
  constructor
  · rintro (hlt | rfl)
    · exact le_of_lt hlt
    · exact le_refl p
  · intro hle
    by_cases hlt : p < q
    · exact .inl hlt
    · exact .inr (le_antisymm hle (not_lt.1 hlt))

end Pos

namespace Range

variable {r s t : Range}

theorem isLE_compare :
    (compare r s).isLE ↔ r.start < s.start ∨ (r.start = s.start ∧ r.stop ≤ s.stop) := by
  change ((compare r.start s.start).then (compare r.stop s.stop)).isLE ↔ _
  rw [Ordering.isLE_then_iff_or, Pos.compare_eq_lt, Pos.compare_eq_eq, Pos.isLE_compare]

theorem isLE_trans (h₁ : (compare r s).isLE) (h₂ : (compare s t).isLE) : (compare r t).isLE := by
  rw [isLE_compare] at *
  rcases h₁ with hlt | ⟨heq, hle⟩
  · refine .inl ?_
    rcases h₂ with hlt' | ⟨heq', -⟩
    · exact Pos.lt_of_lt_of_le hlt (Pos.le_of_lt hlt')
    · exact heq' ▸ hlt
  · rw [heq]
    rcases h₂ with hlt' | ⟨heq', hle'⟩
    · exact .inl hlt'
    · exact .inr ⟨heq', Pos.le_trans hle hle'⟩

theorem isLE_total (r s : Range) : (compare r s).isLE ∨ (compare s r).isLE := by
  rw [isLE_compare, isLE_compare]
  by_cases hrs : r.start < s.start
  · exact .inl (.inl hrs)
  · by_cases hsr : s.start < r.start
    · exact .inr (.inl hsr)
    · have hstart : r.start = s.start := Pos.le_antisymm (Pos.not_lt.1 hsr) (Pos.not_lt.1 hrs)
      by_cases hstop : r.stop < s.stop
      · exact .inl (.inr ⟨hstart, Pos.le_of_lt hstop⟩)
      · exact .inr (.inr ⟨hstart.symm, Pos.not_lt.1 hstop⟩)

theorem isLE_antisymm (h₁ : (compare r s).isLE) (h₂ : (compare s r).isLE) : r = s := by
  rw [isLE_compare] at *
  rcases h₁ with hlt | ⟨heq, hle⟩
  · rcases h₂ with hlt' | ⟨heq', -⟩
    · exact absurd (Pos.lt_of_lt_of_le hlt (Pos.le_of_lt hlt')) (Pos.lt_irrefl _)
    · exact absurd (heq' ▸ hlt) (Pos.lt_irrefl _)
  · rcases h₂ with hlt' | ⟨-, hle'⟩
    · exact absurd (heq ▸ hlt') (Pos.lt_irrefl _)
    · exact Range.ext heq (Pos.le_antisymm hle hle')

end Range

/-! ## Sorted edits -/

namespace Edit

variable {e f : Edit} {edits edits' : List Edit}

/-- The order that edits are sorted by. -/
def notAfter (e f : Edit) : Bool := (compare e.range f.range).isLE

/-- The edits, sorted. -/
def sorted (edits : List Edit) : List Edit := edits.mergeSort notAfter

/-- The same edits in another order, in which those of one range keep theirs. -/
structure Reorders (edits edits' : List Edit) : Prop where
  perm : edits.Perm edits'
  ties : ∀ r, edits.filter (·.range = r) = edits'.filter (·.range = r)

theorem Reorders.trans {edits'' : List Edit} (h : Reorders edits edits')
    (h' : Reorders edits' edits'') : Reorders edits edits'' :=
  ⟨h.perm.trans h'.perm, fun r => (h.ties r).trans (h'.ties r)⟩

theorem Reorders.symm (h : Reorders edits edits') : Reorders edits' edits :=
  ⟨h.perm.symm, fun r => (h.ties r).symm⟩

theorem notAfter_trans (a b c : Edit) (h₁ : notAfter a b) (h₂ : notAfter b c) : notAfter a c :=
  Range.isLE_trans h₁ h₂

theorem notAfter_total (a b : Edit) : notAfter a b || notAfter b a :=
  Bool.or_eq_true_iff.2 (Range.isLE_total a.range b.range)

theorem pairwise_sorted (edits : List Edit) : (sorted edits).Pairwise fun e f => notAfter e f :=
  List.pairwise_mergeSort notAfter_trans notAfter_total edits

/-- Sorting keeps the order of edits of one range. -/
theorem reorders_sorted (edits : List Edit) : Reorders (sorted edits) edits := by
  have hperm : (sorted edits).Perm edits := List.mergeSort_perm edits notAfter
  refine ⟨hperm, fun r => ?_⟩
  -- the edits of one range are sorted as they stand, so sorting leaves them in this order
  have hties : (edits.filter (·.range = r)).Pairwise fun e f => notAfter e f := by
    refine List.pairwise_of_forall_mem_list fun e he f hf => ?_
    have her : e.range = r := by simpa using (List.mem_filter.1 he).2
    have hfr : f.range = r := by simpa using (List.mem_filter.1 hf).2
    rw [notAfter, her, hfr, Range.isLE_compare]
    exact .inr ⟨rfl, Pos.le_refl _⟩
  have hsub : (edits.filter (·.range = r)).Sublist (sorted edits) :=
    List.sublist_mergeSort notAfter_trans notAfter_total hties List.filter_sublist
  have hsub' := hsub.filter (·.range = r)
  rw [List.filter_filter] at hsub'
  simp only [Bool.and_self] at hsub'
  exact (hsub'.eq_of_length (hperm.filter _).length_eq.symm).symm

/-- Sorted lists of the same edits have the same ranges, place by place. -/
theorem map_range_eq (hperm : edits.Perm edits') (hsorted : edits.Pairwise fun e f => notAfter e f)
    (hsorted' : edits'.Pairwise fun e f => notAfter e f) :
    edits.map (·.range) = edits'.map (·.range) := by
  have hranges : (edits.map (·.range)).Pairwise fun r s => (compare r s).isLE :=
    List.pairwise_map.2 hsorted
  have hranges' : (edits'.map (·.range)).Pairwise fun r s => (compare r s).isLE :=
    List.pairwise_map.2 hsorted'
  exact (hperm.map (·.range)).eq_of_pairwise (fun r s _ _ hrs hsr => Range.isLE_antisymm hrs hsr)
    hranges hranges'

/-- Of the same ranges there is one list in which ties stand in a given order. -/
theorem eq_of_ties (hranges : edits.map (·.range) = edits'.map (·.range))
    (hties : ∀ r, edits.filter (·.range = r) = edits'.filter (·.range = r)) : edits = edits' := by
  induction edits generalizing edits' with
  | nil => exact (List.map_eq_nil_iff.1 hranges.symm).symm
  | cons e rest ih =>
    cases edits' with
    | nil => cases hranges
    | cons f rest' =>
      obtain ⟨hrange, hrest⟩ := List.cons.inj hranges
      have hfirst := hties e.range
      rw [List.filter_cons_of_pos (by simp), List.filter_cons_of_pos (by simp [hrange])] at hfirst
      obtain ⟨rfl, -⟩ := List.cons.inj hfirst
      have hlater : ∀ r, rest.filter (·.range = r) = rest'.filter (·.range = r) := by
        intro r
        have hr := hties r
        by_cases her : e.range = r
        · rw [List.filter_cons_of_pos (by simpa using her),
            List.filter_cons_of_pos (by simpa using her)] at hr
          exact List.tail_eq_of_cons_eq hr
        · rwa [List.filter_cons_of_neg (by simpa using her),
            List.filter_cons_of_neg (by simpa using her)] at hr
      rw [ih hrest hlater]

/-- Sorting does not depend on the order given, ties apart. -/
theorem Reorders.sorted_eq (h : Reorders edits edits') : sorted edits = sorted edits' := by
  have hall : Reorders (sorted edits) (sorted edits') :=
    ((reorders_sorted edits).trans h).trans (reorders_sorted edits').symm
  have hranges := map_range_eq hall.perm (pairwise_sorted edits) (pairwise_sorted edits')
  exact eq_of_ties hranges hall.ties

/-! ## The order of a patch -/

/-- Edits are in order if each runs forward and precedes all that come after it. -/
theorem ordered_iff :
    Ordered edits ↔ (∀ e ∈ edits, e.range.Forward) ∧ edits.Pairwise Precedes := by
  constructor
  · intro h
    refine ⟨fun e he => Patch.forward_of_ordered h he, ?_⟩
    induction edits with
    | nil => exact .nil
    | cons e rest ih => exact .cons (fun f hf => h.stop_le_start hf) (ih h.tail)
  · rintro ⟨hforward, hprecedes⟩
    induction edits with
    | nil => trivial
    | cons e rest ih =>
      obtain ⟨he, hrest⟩ := List.forall_mem_cons.1 hforward
      obtain ⟨hfirst, hlater⟩ := List.pairwise_cons.1 hprecedes
      exact .cons he (ih hrest hlater) fun f hf => hfirst f (List.mem_of_mem_head? hf)

/-- The order depends on the ranges alone. -/
theorem Ordered.congr (h : Ordered edits) (hranges : edits.map (·.range) = edits'.map (·.range)) :
    Ordered edits' := by
  obtain ⟨hforward, hprecedes⟩ := ordered_iff.1 h
  have hforward' : ∀ r ∈ edits.map (·.range), r.Forward := List.forall_mem_map.2 hforward
  have hprecedes' : (edits.map (·.range)).Pairwise fun r s => r.stop ≤ s.start :=
    List.pairwise_map.2 hprecedes
  rw [hranges] at hforward' hprecedes'
  rw [List.pairwise_map] at hprecedes'
  exact ordered_iff.2 ⟨List.forall_mem_map.1 hforward', hprecedes'⟩

/-- Edits in order are sorted. -/
theorem Ordered.pairwise_notAfter (h : Ordered edits) :
    edits.Pairwise fun e f => notAfter e f := by
  obtain ⟨hforward, hprecedes⟩ := ordered_iff.1 h
  refine hprecedes.imp_of_mem fun {e f} he hf hstop => ?_
  -- the first one starts, stops, and only then the other one starts and stops
  have hstart : e.range.start ≤ f.range.start := Pos.le_trans (hforward e he) hstop
  have hstop' : e.range.stop ≤ f.range.stop := Pos.le_trans hstop (hforward f hf)
  rw [notAfter, Range.isLE_compare]
  by_cases hlt : e.range.start < f.range.start
  · exact .inl hlt
  · exact .inr ⟨Pos.le_antisymm hstart (Pos.not_lt.1 hlt), hstop'⟩

/-- If the edits have an order that makes a patch, sorting finds one. -/
theorem Ordered.sorted (h : Ordered edits') (hperm : edits'.Perm edits) :
    Ordered (sorted edits) :=
  h.congr (map_range_eq (hperm.trans (reorders_sorted edits).perm.symm) h.pairwise_notAfter
    (pairwise_sorted edits))

/-- No position lies in the ranges of two edits in order. -/
theorem Ordered.pairwise_disjoint (h : Ordered edits) :
    edits.Pairwise fun e f => ∀ q, ¬ (e.range.Contains q ∧ f.range.Contains q) := by
  refine (ordered_iff.1 h).2.imp fun {e f} hstop q hq => ?_
  obtain ⟨⟨-, hlt⟩, hle, -⟩ := hq
  exact Pos.lt_irrefl q (Pos.lt_of_lt_of_le hlt (Pos.le_trans hstop hle))

end Edit

namespace Patch

/-- There is nothing to sort in a patch. -/
theorem ofUnsorted_edits (p : Patch) : ofUnsorted p.edits = .ok p := by
  have hsorted : Edit.sorted p.edits = p.edits :=
    List.mergeSort_of_pairwise p.ordered.pairwise_notAfter
  exact ofEdits_eq_ok.2 hsorted.symm

/-- Edits given in any order make a patch exactly if some order of them does.  The patch has the
same edits, those of one range in the order given, and no position lies in the ranges of two.  The
same edits in another order that keeps ties make the same patch, and so the same of every text and of
all mappings, or meet the same fault. -/
theorem ofUnsorted_reorders (edits : List Edit) :
    ((∃ p, ofUnsorted edits = .ok p) ↔ ∃ edits' p, edits'.Perm edits ∧ ofEdits edits' = .ok p) ∧
      (∀ p, ofUnsorted edits = .ok p →
        Edit.Reorders p.edits edits ∧
          p.edits.Pairwise fun e f => ∀ q, ¬ (e.range.Contains q ∧ f.range.Contains q)) ∧
      ∀ edits', Edit.Reorders edits' edits → ofUnsorted edits' = ofUnsorted edits := by
  have hsort : ∀ edits, ofUnsorted edits = ofEdits (Edit.sorted edits) := fun _ => rfl
  refine ⟨⟨?_, ?_⟩, ?_, ?_⟩
  · rintro ⟨p, hp⟩
    exact ⟨Edit.sorted edits, p, (Edit.reorders_sorted edits).perm, hp⟩
  · rintro ⟨edits', p, hperm, hp⟩
    have hordered : Edit.Ordered edits' := ofEdits_eq_ok.1 hp ▸ p.ordered
    exact ⟨⟨Edit.sorted edits, hordered.sorted hperm⟩, ofEdits_eq_ok.2 rfl⟩
  · intro p hp
    have hedits : p.edits = Edit.sorted edits := ofEdits_eq_ok.1 hp
    exact ⟨hedits ▸ Edit.reorders_sorted edits, p.ordered.pairwise_disjoint⟩
  · intro edits' h
    rw [hsort, hsort, h.sorted_eq]

/-- Insertions at both ends of a range that is replaced, two of them at its start. -/
def scattered : List Edit :=
  [Edit.insert ⟨1, 0⟩ "b", Edit.insert ⟨0, 2⟩ "x", ⟨⟨⟨0, 2⟩, ⟨1, 0⟩⟩, "c"⟩, Edit.insert ⟨0, 2⟩ "y"]

/-- The order in which they make a patch. -/
def gathered : Patch :=
  ⟨[Edit.insert ⟨0, 2⟩ "x", Edit.insert ⟨0, 2⟩ "y", ⟨⟨⟨0, 2⟩, ⟨1, 0⟩⟩, "c"⟩,
    Edit.insert ⟨1, 0⟩ "b"], by decide⟩

theorem ofUnsorted_reorders_scattered :
    Edit.Reorders gathered.edits scattered ∧ (∃ p, ofUnsorted scattered = .ok p) ∧
      ofUnsorted scattered = .ok gathered ∧
      gathered.edits.Pairwise fun e f => ∀ q, ¬ (e.range.Contains q ∧ f.range.Contains q) := by
  have hties : ∀ r, gathered.edits.filter (·.range = r) = scattered.filter (·.range = r) := by
    intro r
    by_cases hstart : Range.emptyAt ⟨0, 2⟩ = r
    · subst hstart
      decide
    · by_cases hstop : Range.emptyAt ⟨1, 0⟩ = r
      · subst hstop
        decide
      · simp [gathered, scattered, Edit.insert, List.filter_cons, hstart, hstop]
  have hreorders : Edit.Reorders gathered.edits scattered := ⟨by decide, hties⟩
  obtain ⟨hsome, hresult, hsame⟩ := ofUnsorted_reorders scattered
  have hgathered : ofUnsorted scattered = .ok gathered :=
    (hsame gathered.edits hreorders).symm.trans (ofUnsorted_edits gathered)
  exact ⟨hreorders, hsome.2 ⟨gathered.edits, gathered, hreorders.perm, ofEdits_edits gathered⟩,
    hgathered, (hresult gathered hgathered).2⟩

end Patch

end Retrace
