import Mathlib.Algebra.Order.Ring.Int
import Retrace.Proofs.Result
import Retrace.Proofs.Text.Moved
import Retrace.Proofs.Text.Offsets

/-!
# Splice — the edited text, cut where the edits cut it

`Splice p old edits new` says what carrying out edits means: the text `old`, which starts at `p`, is
cut into stretches that stay and stretches that go, and `new` has the texts of the edits in place of
the latter.

* `Patch.splice_applyFrom` — applying a patch whose positions lie inside the text carries it out;
* `Splice.applyFrom_eq` — there is one text that it gives;
* `Splice.normalizeEdits` — the normal form has the same effect;
* `Splice.standsAt_newRanges` — the new texts stand at the new ranges, inside the edited text;
* `Splice.moved` — an unedited place of the old text, and its place in the new one;
* `Patch.moved?_posOf` — the same by offsets, for a whole patch.
-/

namespace Retrace

/-- The edits, carried out on the text `old` that starts at `p`, give `new`. -/
inductive Splice : Pos → List Char → List Edit → List Char → Prop where
  | done (p : Pos) (rest : List Char) : Splice p rest [] rest
  | edit {p : Pos} {gap gone rest new : List Char} {e : Edit} {edits : List Edit}
      (hstart : e.range.start = p.after gap)
      (hstop : e.range.stop = (p.after gap).after gone)
      (htail : Splice e.range.stop rest edits new) :
      Splice p (gap ++ (gone ++ rest)) (e :: edits) (gap ++ (e.text.toList ++ new))

namespace Patch

/-- Every edit starts and stops inside the text. -/
def InsideOf (p : Patch) (text : List Char) : Prop :=
  ∀ e ∈ p.edits, Text.Inside text e.range.start ∧ Text.Inside text e.range.stop

instance (p : Patch) (text : List Char) : Decidable (p.InsideOf text) :=
  inferInstanceAs (Decidable (∀ e ∈ p.edits, _ ∧ _))

/-- The bytes that an edit adds in front of offset `o`: those of its text less those it removes, if
it stops at `o` or before. -/
def growth (text : List Char) (o : Nat) (e : Edit) : Int :=
  let span := Text.spanOf text e.range
  if span.stop ≤ o then (Text.byteLength e.text.toList : Int) - ((span.stop : Int) - span.start)
  else 0

/-- Where an unedited offset of the text goes. -/
def movedOffset (p : Patch) (text : List Char) (o : Nat) : Int :=
  o + (p.edits.map (growth text o)).sum

end Patch

/-- The text of the edit stands at `r`. -/
def Edit.StandsAt (text : List Char) (e : Edit) (r : Range) : Prop :=
  ∃ front back, text = front ++ (e.text.toList ++ back) ∧
    r = ⟨Pos.zero.after front, Pos.zero.after (front ++ e.text.toList)⟩

theorem Edit.StandsAt.inside {text : List Char} {e : Edit} {r : Range} (h : e.StandsAt text r) :
    Text.Inside text r.start ∧ Text.Inside text r.stop := by
  obtain ⟨front, back, rfl, rfl⟩ := h
  constructor
  · exact Text.inside_after front _
  · rw [← List.append_assoc]
    exact Text.inside_after (front ++ e.text.toList) back

namespace Splice

variable {p : Pos} {old new : List Char} {e f : Edit} {edits : List Edit}

/-- An edit covers the bytes of the stretch that goes. -/
theorem spanOf_cut {base gap gone : List Char}
    (hstart : e.range.start = (Pos.zero.after base).after gap)
    (hstop : e.range.stop = ((Pos.zero.after base).after gap).after gone) (rest : List Char) :
    Text.spanOf (base ++ (gap ++ (gone ++ rest))) e.range
      = ⟨Text.byteLength (base ++ gap), Text.byteLength (base ++ gap ++ gone)⟩ := by
  have hgap : e.range.start = Pos.zero.after (base ++ gap) := by
    rw [hstart, Pos.after_append]
  have hgone : e.range.stop = Pos.zero.after (base ++ gap ++ gone) := by
    rw [hstop, Pos.after_append, Pos.after_append]
  unfold Text.spanOf
  rw [hgap, hgone]
  congr 1
  · rw [← List.append_assoc, Text.offsetOf_append]
  · rw [← List.append_assoc, ← List.append_assoc, Text.offsetOf_append]

/-! ## Carrying out edits -/

/-- Copying up to an edit, and past it. -/
theorem applyFrom_cut {base gap gone : List Char}
    (hstart : e.range.start = (Pos.zero.after base).after gap)
    (hstop : e.range.stop = ((Pos.zero.after base).after gap).after gone) (rest : List Char)
    (edits : List Edit) :
    Patch.applyFrom (base ++ (gap ++ (gone ++ rest))) (Text.byteLength base) (e :: edits)
      = gap ++ (e.text.toList ++ Patch.applyFrom (base ++ gap ++ gone ++ rest)
          (Text.byteLength (base ++ gap ++ gone)) edits) := by
  have hgap : Text.byteLength (base ++ gap) - Text.byteLength base = Text.byteLength gap := by
    simp
  have hdone : max (Text.byteLength base) (Text.byteLength (base ++ gap ++ gone))
      = Text.byteLength (base ++ gap ++ gone) := by
    simp only [Text.byteLength_append]
    omega
  have hassoc : base ++ (gap ++ (gone ++ rest)) = base ++ gap ++ gone ++ rest := by simp
  rw [Patch.applyFrom]
  simp only [spanOf_cut hstart hstop rest]
  rw [Text.dropBytes_append, hgap, Text.takeBytes_append, hdone, hassoc, List.append_assoc]

/-- Copying what lies between the edits gives the spliced text. -/
theorem of_applyFrom (front : List Char) {edits : List Edit} {rest : List Char}
    (hordered : Edit.Ordered edits)
    (hinside : ∀ e ∈ edits,
      Text.Inside (front ++ rest) e.range.start ∧ Text.Inside (front ++ rest) e.range.stop)
    (hfirst : ∀ e ∈ edits.head?, Pos.zero.after front ≤ e.range.start) :
    Splice (Pos.zero.after front) rest edits
      (Patch.applyFrom (front ++ rest) (Text.byteLength front) edits) := by
  induction edits generalizing front rest with
  | nil =>
    rw [Patch.applyFrom, Text.dropBytes_append]
    exact done _ rest
  | cons e edits ih =>
    -- the range of the first edit cuts the text into what stays, what goes and the rest
    rcases hinside e List.mem_cons_self with ⟨hin₁, hin₂⟩
    rcases Text.exists_prefix_of_inside hin₁ with ⟨front₁, back₁, htext₁, hstart⟩
    rcases Text.exists_prefix_of_inside hin₂ with ⟨front₂, back₂, htext₂, hstop⟩
    have hle₁ : Pos.zero.after front ≤ Pos.zero.after front₁ := hstart ▸ hfirst e rfl
    have hle₂ : Pos.zero.after front₁ ≤ Pos.zero.after front₂ := hstart ▸ hstop ▸ hordered.head
    rcases Text.prefix_of_after_le Pos.zero htext₁ hle₁ with ⟨gap, rfl, rfl⟩
    have htext : front ++ gap ++ back₁ = front₂ ++ back₂ := by
      rw [List.append_assoc]
      exact htext₂
    rcases Text.prefix_of_after_le Pos.zero htext hle₂ with ⟨gone, rfl, rfl⟩
    rw [Pos.after_append] at hstart hstop
    rw [Pos.after_append] at hstop
    -- in bytes this is where `applyFrom` cuts it
    have hassoc : front ++ (gap ++ (gone ++ back₂)) = front ++ gap ++ gone ++ back₂ := by
      simp
    rw [applyFrom_cut hstart hstop back₂ edits]
    refine edit hstart hstop ?_
    have hbase : e.range.stop = Pos.zero.after (front ++ gap ++ gone) := by
      rw [hstop, Pos.after_append, Pos.after_append]
    rw [hbase]
    refine ih _ hordered.tail ?_ ?_
    · intro f hf
      rw [← hassoc]
      exact hinside f (List.mem_cons_of_mem e hf)
    · intro f hf
      rw [← hbase]
      exact hordered.next f hf

/-- A spliced text is what copying between the edits gives. -/
theorem applyFrom_eq (base : List Char) (h : Splice (Pos.zero.after base) old edits new) :
    Patch.applyFrom (base ++ old) (Text.byteLength base) edits = new := by
  -- `base` is the text that has been copied or left out so far
  generalize hp : Pos.zero.after base = p at h
  induction h generalizing base with
  | done p rest => rw [Patch.applyFrom, Text.dropBytes_append]
  | @edit p gap gone rest new e edits hstart hstop htail ih =>
    subst hp
    have hbase : Pos.zero.after (base ++ gap ++ gone) = e.range.stop := by
      rw [hstop, Pos.after_append, Pos.after_append]
    rw [applyFrom_cut hstart hstop rest edits, ih _ hbase]

/-! ## The normal form -/

/-- Text in front of everything stays. -/
theorem prepend {gap : List Char} (h : Splice (p.after gap) old edits new) :
    Splice p (gap ++ old) edits (gap ++ new) := by
  cases h with
  | done => exact done p _
  | @edit _ gap' gone rest new e edits hstart hstop htail =>
    rw [← Pos.after_append p gap] at hstart hstop
    rw [← List.append_assoc gap gap', ← List.append_assoc gap gap']
    exact edit hstart hstop htail

/-- A stretch that starts and stops at one position is empty. -/
theorem eq_nil_of_after_eq {gone : List Char} (h : p = p.after gone) : gone = [] := by
  cases gone with
  | nil => rfl
  | cons c rest =>
    have hlt := Pos.lt_after p (List.cons_ne_nil c rest)
    rw [← h] at hlt
    exact absurd hlt (Pos.lt_irrefl p)

theorem skip (h : Splice p old (e :: edits) new) (hempty : e.IsEmpty) :
    Splice p old edits new := by
  cases h with
  | edit hstart hstop htail =>
    -- nothing goes, so the stretch that stays reaches into the next one
    have hrange : e.range.start = e.range.stop := hempty.1
    rename_i gap gone rest new
    have hgone : gone = [] := eq_nil_of_after_eq (hstart.symm.trans (hrange.trans hstop))
    subst hgone
    have htext : e.text.toList = [] := by rw [hempty.2]; rfl
    rw [htext]
    rw [hstop] at htail
    exact prepend htail

theorem join (h : Splice p old (e :: f :: edits) new) (hordered : Edit.Ordered (e :: f :: edits))
    (htouch : e.range.stop = f.range.start) : Splice p old (e.join f :: edits) new := by
  cases h with
  | edit hstart hstop htail =>
    cases htail with
    | edit hstart' hstop' htail' =>
      rename_i gap gone gap' gone' rest new
      -- nothing stays between the two, so both stretches go as one
      have hgap : gap' = [] := eq_nil_of_after_eq (htouch.trans hstart')
      subst hgap
      have hrange := Edit.join_range hordered htouch
      have htext : (e.join f).text.toList = e.text.toList ++ f.text.toList := by simp [Edit.join]
      have hjoin : Splice p (gap ++ ((gone ++ gone') ++ rest)) (e.join f :: edits)
          (gap ++ ((e.join f).text.toList ++ new)) := by
        refine edit ?_ ?_ ?_
        · rw [hrange, hstart]
        · rw [hrange, hstop', hstop, Pos.after_append]
          rfl
        · rw [hrange]
          exact htail'
      simpa [htext] using hjoin

theorem cons_congr {edits' : List Edit} (h : Splice p old (e :: edits) new)
    (hcongr : ∀ {old new}, Splice e.range.stop old edits new → Splice e.range.stop old edits' new) :
    Splice p old (e :: edits') new := by
  cases h with
  | edit hstart hstop htail => exact edit hstart hstop (hcongr htail)

theorem normalizeFrom {last : Edit} (h : Splice p old (last :: edits) new)
    (hordered : Edit.Ordered (last :: edits)) :
    Splice p old (Patch.normalizeFrom last edits) new := by
  fun_induction Patch.normalizeFrom last edits generalizing p old new with
  | case1 last => exact h
  | case2 last e rest htouch ih => exact ih (h.join hordered htouch) (hordered.join htouch)
  | case3 last e rest htouch hempty ih =>
    exact ih (h.cons_congr fun htail => htail.skip hempty) (hordered.skip hempty.1)
  | case4 last e rest htouch hempty ih =>
    exact h.cons_congr fun htail => ih htail hordered.tail

/-- Edits in normal form have the same effect. -/
theorem normalizeEdits (h : Splice p old edits new) (hordered : Edit.Ordered edits) :
    Splice p old (Patch.normalizeEdits edits) new := by
  fun_induction Patch.normalizeEdits edits with
  | case1 => exact h
  | case2 e rest hempty ih => exact ih (h.skip hempty) hordered.tail
  | case3 e rest hempty => exact h.normalizeFrom hordered

/-! ## The new texts -/

/-- The text of the first edit stands behind what stays in front of it. -/
theorem newRangesFrom_cut (front : List Char) {gap : List Char}
    (hstart : e.range.start = p.after gap) (edits : List Edit) :
    Patch.newRangesFrom p (Pos.zero.after front) (e :: edits)
      = ⟨Pos.zero.after (front ++ gap), Pos.zero.after (front ++ gap ++ e.text.toList)⟩
        :: Patch.newRangesFrom e.range.stop (Pos.zero.after (front ++ gap ++ e.text.toList))
          edits := by
  have hnewStart : Patch.shift p (Pos.zero.after front) e.range.start
      = Pos.zero.after (front ++ gap) := by
    rw [hstart, Patch.shift_after, Pos.after_append]
  have hnewStop : (Extent.ofText e.text.toList).endFrom (Pos.zero.after (front ++ gap))
      = Pos.zero.after (front ++ gap ++ e.text.toList) := by
    rw [← Pos.after_eq_endFrom, Pos.after_append _ (front ++ gap)]
  rw [Patch.newRangesFrom, hnewStart, Extent.rangeFrom, hnewStop]

/-- In each new range stands the text of its edit. -/
theorem standsAt_newRanges (front : List Char) (h : Splice p old edits new) :
    List.Forall₂ (Edit.StandsAt (front ++ new)) edits
      (Patch.newRangesFrom p (Pos.zero.after front) edits) := by
  induction h generalizing front with
  | done => exact .nil
  | @edit p gap gone rest new e edits hstart hstop htail ih =>
    have htext : front ++ (gap ++ (e.text.toList ++ new))
        = front ++ gap ++ (e.text.toList ++ new) := by simp
    have htext' : front ++ (gap ++ (e.text.toList ++ new))
        = front ++ gap ++ e.text.toList ++ new := by simp
    rw [newRangesFrom_cut front hstart]
    refine .cons ⟨front ++ gap, new, htext, rfl⟩ ?_
    -- behind it `front`, the gap and the text of this edit stand by now
    rw [htext']
    exact ih _

/-- The texts of the edits stand inside the text in which they replace what goes. -/
theorem newRanges_inside (front : List Char) (h : Splice p old edits new) :
    ∀ r ∈ Patch.newRangesFrom p (Pos.zero.after front) edits,
      Text.Inside (front ++ new) r.start ∧ Text.Inside (front ++ new) r.stop := by
  intro r hr
  obtain ⟨e, -, hstands⟩ := exists_mem_of_forall₂ (h.standsAt_newRanges front) hr
  exact hstands.inside

/-! ## Places that stay -/

/-- All edits cover bytes of the text they cut. -/
theorem span_bounds (base : List Char) (h : Splice (Pos.zero.after base) old edits new)
    (hf : f ∈ edits) :
    Text.byteLength base ≤ (Text.spanOf (base ++ old) f.range).start ∧
      (Text.spanOf (base ++ old) f.range).start ≤ (Text.spanOf (base ++ old) f.range).stop := by
  generalize hp : Pos.zero.after base = p at h
  induction h generalizing base with
  | done => cases hf
  | @edit p gap gone rest new e edits hstart hstop htail ih =>
    subst hp
    rcases List.mem_cons.1 hf with rfl | hrest
    · rw [spanOf_cut hstart hstop]
      simp only [Text.byteLength_append]
      omega
    · have hbase : Pos.zero.after (base ++ gap ++ gone) = e.range.stop := by
        rw [hstop, Pos.after_append, Pos.after_append]
      have hbounds := ih _ hrest hbase
      simp only [List.append_assoc, Text.byteLength_append] at hbounds
      omega

/-- Edits further on add nothing in front of a place. -/
theorem growth_eq_zero (base : List Char) (h : Splice (Pos.zero.after base) old edits new) {o : Nat}
    (ho : o < Text.byteLength base) (hf : f ∈ edits) : Patch.growth (base ++ old) o f = 0 := by
  have hbounds := span_bounds base h hf
  exact if_neg (by omega)

/-- Text that stays in front of all edits stays where it is. -/
theorem moved_in_front (base : List Char) {a middle : List Char} (hmiddle : middle ≠ [])
    (h : Splice (Pos.zero.after (base ++ (a ++ middle))) old edits new)
    (hfirst : ∀ f ∈ edits.head?, Pos.zero.after (base ++ (a ++ middle)) ≤ f.range.start) :
    (edits.map
        (Patch.growth (base ++ (a ++ middle ++ old)) (Text.byteLength (base ++ a)))).sum = 0 ∧
      ∀ p', Patch.movedFrom (Pos.zero.after base) p' (Pos.zero.after (base ++ a)) edits
        = some (p'.after a) := by
  have hlength : 0 < Text.byteLength middle :=
    Nat.pos_of_ne_zero (mt Text.byteLength_eq_zero.1 hmiddle)
  have hgrowth : ∀ f ∈ edits,
      Patch.growth (base ++ (a ++ middle ++ old)) (Text.byteLength (base ++ a)) f = 0 := by
    intro f hf
    have hfront : Text.byteLength (base ++ a) < Text.byteLength (base ++ (a ++ middle)) := by
      simp only [Text.byteLength_append]
      omega
    have hzero := growth_eq_zero (base ++ (a ++ middle)) h hfront hf
    rw [List.append_assoc] at hzero
    exact hzero
  -- a place in front of the first edit moves with the start of the text
  have hbefore : Pos.zero.after (base ++ a) < Pos.zero.after (base ++ (a ++ middle)) := by
    rw [← List.append_assoc, Pos.after_append _ (base ++ a)]
    exact Pos.lt_after _ hmiddle
  constructor
  · rw [List.map_congr_left hgrowth, List.map_const', List.sum_replicate_int, Int.mul_zero]
  · intro p'
    rw [Pos.after_append _ base a] at hbefore ⊢
    cases edits with
    | nil => rw [Patch.movedFrom, Patch.shift_after]
    | cons f rest =>
      have hlt := Pos.lt_of_lt_of_le hbefore (hfirst f rfl)
      rw [Patch.movedFrom, if_pos hlt, Patch.shift_after]

/-- An edit that lies in front of a place adds its text and takes away what goes. -/
theorem growth_cut {base gap gone : List Char}
    (hstart : e.range.start = (Pos.zero.after base).after gap)
    (hstop : e.range.stop = ((Pos.zero.after base).after gap).after gone) (rest : List Char)
    {o : Nat} (ho : Text.byteLength (base ++ gap ++ gone) ≤ o) :
    Patch.growth (base ++ (gap ++ (gone ++ rest))) o e
      = (Text.byteLength e.text.toList : Int) - Text.byteLength gone := by
  rw [Patch.growth, spanOf_cut hstart hstop rest]
  simp only [if_pos ho]
  rw [Text.byteLength_append (base ++ gap) gone]
  omega

/-- The end of a prefix `a` of the old text that no edit replaces is the end of a prefix of the new
text, at the place to which the edits in front move it. -/
theorem moved (base : List Char) {a b : List Char}
    (h : Splice (Pos.zero.after base) (a ++ b) edits new)
    (hkept : ∀ e ∈ edits,
      ¬ (Text.spanOf (base ++ (a ++ b)) e.range).Contains (Text.byteLength (base ++ a))) :
    ∃ a' b', new = a' ++ b' ∧
      (Text.byteLength a' : Int) = Text.byteLength a
        + (edits.map (Patch.growth (base ++ (a ++ b)) (Text.byteLength (base ++ a)))).sum ∧
      ∀ p', Patch.movedFrom (Pos.zero.after base) p' (Pos.zero.after (base ++ a)) edits
        = some (p'.after a') := by
  generalize hp : Pos.zero.after base = p at h ⊢
  generalize hold : a ++ b = old at h hkept ⊢
  -- on the stretches of the old text: `base` is what lies behind, `a` what is still to pass
  induction h generalizing base a with
  | done p rest =>
    refine ⟨a, b, hold.symm, by simp, ?_⟩
    intro p'
    rw [Patch.movedFrom, Pos.after_append, hp, Patch.shift_after]
  | @edit p gap gone rest new e edits hstart hstop htail ih =>
    subst hp
    have hbase : Pos.zero.after (base ++ gap ++ gone) = e.range.stop := by
      rw [hstop, Pos.after_append, Pos.after_append]
    have hassoc : base ++ (gap ++ (gone ++ rest)) = base ++ gap ++ gone ++ rest := by simp
    by_cases hlt : Text.byteLength a < Text.byteLength gap
    · -- the place lies in front of the first edit, and no edit moves it
      obtain ⟨middle, hmiddle, rfl, -⟩ := Text.prefix_of_byteLength_lt hold hlt
      have hgap : (Pos.zero.after (base ++ (a ++ middle))).after []
          = (Pos.zero.after base).after (a ++ middle) := Pos.after_append _ _ _
      have hahead : Splice (Pos.zero.after (base ++ (a ++ middle))) ([] ++ (gone ++ rest))
          (e :: edits) ([] ++ (e.text.toList ++ new)) := by
        refine edit ?_ ?_ htail
        · rw [hgap]
          exact hstart
        · rw [hgap]
          exact hstop
      obtain ⟨hgrowth, hmoved⟩ := moved_in_front base hmiddle hahead (by
        rintro f ⟨⟩
        rw [hstart]
        exact hgap ▸ Pos.le_refl _)
      refine ⟨a, middle ++ (e.text.toList ++ new), by simp, ?_, hmoved⟩
      rw [List.nil_append] at hgrowth
      rw [hgrowth, Int.add_zero]
    · -- the place lies behind the first edit, since it does not lie in what goes
      have hcontains := hkept e List.mem_cons_self
      rw [spanOf_cut hstart hstop rest] at hcontains
      have hle : Text.byteLength (gap ++ gone) ≤ Text.byteLength a := by
        simp only [Span.Contains, Text.byteLength_append] at hcontains ⊢
        omega
      have hold' : (gap ++ gone) ++ rest = a ++ b := by rw [hold, List.append_assoc]
      rcases Text.prefix_of_byteLength_le hold' hle with ⟨a₂, rfl, hrest⟩
      have hplace : base ++ (gap ++ gone ++ a₂) = base ++ gap ++ gone ++ a₂ := by simp
      obtain ⟨a', b', hnew, hlength, hmoved⟩ := ih _ hbase hrest.symm (by
        intro f hf
        rw [← hassoc, ← hplace]
        exact hkept f (List.mem_cons_of_mem e hf))
      refine ⟨gap ++ e.text.toList ++ a', b', by simp [hnew], ?_, ?_⟩
      · have hbehind : Text.byteLength (base ++ gap ++ gone)
            ≤ Text.byteLength (base ++ (gap ++ gone ++ a₂)) := by
          rw [hplace, Text.byteLength_append (base ++ gap ++ gone)]
          omega
        rw [List.map_cons, List.sum_cons, growth_cut hstart hstop rest hbehind, hplace, hassoc]
        simp only [Text.byteLength_append] at hlength ⊢
        omega
      · intro p'
        have hstart' : ¬ Pos.zero.after (base ++ (gap ++ gone ++ a₂)) < e.range.start := by
          rw [Pos.not_lt, hstart, Pos.after_append, List.append_assoc, Pos.after_append _ gap]
          exact Pos.le_after _ _
        have hstop' : ¬ Pos.zero.after (base ++ (gap ++ gone ++ a₂)) < e.range.stop := by
          rw [Pos.not_lt, ← hbase, hplace, Pos.after_append _ (base ++ gap ++ gone)]
          exact Pos.le_after _ _
        rw [Patch.movedFrom, if_neg hstart', if_neg hstop', hplace, hmoved, hstart,
          Patch.shift_after, Edit.newStop, ← Pos.after_eq_endFrom, Pos.after_append,
          Pos.after_append]

end Splice

/-! ## Whole patches -/

namespace Patch

variable {p : Patch} {text : List Char}

theorem toList_apply (p : Patch) (text : String) :
    (p.apply text).toList = applyFrom text.toList 0 p.edits := String.toList_ofList

/-- Carrying out a patch inside a text. -/
theorem splice_applyFrom (hinside : p.InsideOf text) :
    Splice Pos.zero text p.edits (applyFrom text 0 p.edits) :=
  Splice.of_applyFrom [] p.ordered hinside fun e _ => Pos.zero_le e.range.start

/-- The normal form of a patch has the same effect. -/
theorem splice_normalize (hinside : p.InsideOf text) :
    Splice Pos.zero text p.normalize.edits (applyFrom text 0 p.edits) :=
  (splice_applyFrom hinside).normalizeEdits p.ordered

/-- The normal form puts its texts inside the edited text. -/
theorem newRanges_normalize_inside (hinside : p.InsideOf text) :
    ∀ r ∈ p.normalize.newRanges,
      Text.Inside (applyFrom text 0 p.edits) r.start ∧
        Text.Inside (applyFrom text 0 p.edits) r.stop :=
  (splice_normalize hinside).newRanges_inside []

/-- An offset that no edit replaces moves to a boundary of the edited text, and its position moves
along. -/
theorem moved?_posOf (hinside : p.InsideOf text) {o : Nat} (ho : Text.Boundary text o)
    (hkept : ∀ e ∈ p.edits, ¬ (Text.spanOf text e.range).Contains o) :
    ∃ o' : Nat, (o' : Int) = p.movedOffset text o ∧
      Text.Boundary (applyFrom text 0 p.edits) o' ∧
      p.moved? (Text.posOf text o) = some (Text.posOf (applyFrom text 0 p.edits) o') := by
  rcases Text.boundary_iff.1 ho with ⟨a, b, rfl, rfl⟩
  obtain ⟨a', b', hnew, hlength, hmoved⟩ :=
    (splice_applyFrom hinside).moved [] hkept
  refine ⟨Text.byteLength a', hlength, ?_, ?_⟩
  · rw [hnew]
    exact Text.boundary_byteLength a' b'
  · rw [hnew, Text.posOf_append, Text.posOf_append]
    exact hmoved Pos.zero

end Patch

end Retrace
