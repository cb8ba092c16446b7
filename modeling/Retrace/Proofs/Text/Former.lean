import Retrace.Proofs.Text.Moved

/-!
# Former — what stood at a place of the edited text before

Every place of an edited text is either a place of one of the new texts, or the place to which
exactly one position of the old text has moved.

* `Patch.former?` — the position that has moved to a place, if there is one;
* `Patch.former?_eq_some` — it is the inverse of `Patch.moved?`;
* `Patch.former?_normalize` — a patch and its normal form agree on it;
* `Patch.former?_newRanges` — in the new texts there is none;
* `Patch.movedFrom_cons`, `Patch.formerFrom_cons` — the edits of a patch may be carried out one by
  one, from the last to the first.
-/

namespace Retrace

namespace Edit

variable {e : Edit} {edits : List Edit}

theorem le_newStop (e : Edit) (p : Pos) : p ≤ e.newStop p := Extent.le_endFrom _ p

theorem Ordered.alone (h : Ordered (e :: edits)) : Ordered [e] := h.head

end Edit

namespace Patch

variable {old new base base' p q q₀ : Pos} {e : Edit} {edits : List Edit} {r : Range}

/-! ## Carrying back -/

/-- Carrying over undoes carrying back. -/
theorem shift_cancel (h : new ≤ q) : shift old new (shift new old q) = q := by
  rw [Pos.le_iff] at h
  by_cases hline : q.line = new.line
  · simp only [shift, hline, if_true]
    ext
    · exact hline.symm
    · simp only
      omega
  · have hline' : q.line + old.line - new.line ≠ old.line := by omega
    simp only [shift, hline, hline', if_false]
    ext
    · simp only
      omega
    · rfl

/-- Carrying over to the same place changes nothing. -/
theorem shift_same (h : p ≤ q) : shift p p q = q := by
  rw [Pos.le_iff] at h
  unfold shift
  split
  · ext
    · simp only
      omega
    · simp only
      omega
  · ext
    · simp only
      omega
    · rfl

/-- Carrying over may be done in two steps, if the second one starts in front of the first. -/
theorem shift_shift_new (hbase : base ≤ new) (hq : old ≤ q) :
    shift base base' (shift old new q) = shift old (shift base base' new) q := by
  rw [Pos.le_iff] at hbase hq
  by_cases hnew : new.line = base.line <;> by_cases hold : q.line = old.line
  · simp only [shift, hnew, hold, if_true]
    ext
    · rfl
    · simp only
      omega
  · have hline : q.line + base.line - old.line ≠ base.line := by omega
    simp only [shift, hnew, hold, hline, if_true, if_false]
    ext
    · simp only
      omega
    · rfl
  · simp only [shift, hnew, hold, if_true, if_false]
  · have hline : q.line + new.line - old.line ≠ base.line := by omega
    simp only [shift, hnew, hold, hline, if_false]
    ext
    · simp only
      omega
    · rfl

/-- A new text reaches as far from every place that its start is carried to. -/
theorem shift_newStop (hbase : base ≤ p) :
    shift base base' (e.newStop p) = e.newStop (shift base base' p) := by
  have hread : ∀ start : Pos, e.newStop start = start.after e.text.toList := fun start =>
    (Pos.after_eq_endFrom start e.text.toList).symm
  calc
    shift base base' (e.newStop p)
        = shift base base' (shift p p (p.after e.text.toList)) := by rw [hread, shift_after]
    _ = shift p (shift base base' p) (p.after e.text.toList) :=
          shift_shift_new hbase (Pos.le_after p _)
    _ = e.newStop (shift base base' p) := by rw [shift_after, hread]

/-! ## The position that has moved to a place -/

/-- What has moved to `q`, given where the stop `old` of the edit before went.  In the new texts
there is nothing of the kind. -/
def formerFrom (old new q : Pos) : List Edit → Option Pos
  | [] => some (shift new old q)
  | e :: rest =>
    let start := shift old new e.range.start
    if q < start then some (shift new old q)
    else if q < e.newStop start then none
    else formerFrom e.range.stop (e.newStop start) q rest

/-- The position of the old text that stands at a place of the edited text. -/
def former? (p : Patch) (q : Pos) : Option Pos := formerFrom Pos.zero Pos.zero q p.edits

/-- Positions behind the stop of an edit stay behind the end of its new text. -/
theorem le_movedFrom (hordered : Edit.Ordered edits)
    (hstart : ∀ e ∈ edits.head?, old ≤ e.range.start) (hq₀ : old ≤ q₀)
    (hmoved : movedFrom old new q₀ edits = some q) : new ≤ q := by
  -- each edit passed puts its stop in the place of `old` and the end of its new text in that of `new`
  induction edits generalizing old new with
  | nil =>
    cases hmoved
    exact le_shift hq₀
  | cons e rest ih =>
    rw [movedFrom] at hmoved
    split at hmoved
    · cases hmoved
      exact le_shift hq₀
    · split at hmoved
      · cases hmoved
      · rename_i hstop
        have hnew : new ≤ e.newStop (shift old new e.range.start) :=
          Pos.le_trans (le_shift (hstart e rfl)) (e.le_newStop _)
        have hrest := ih hordered.tail hordered.next (Pos.not_lt.1 hstop) hmoved
        exact Pos.le_trans hnew hrest

/-- A position that stays lies in front of the first edit, and then it stays in front of the new
text, or behind the edit, and then it stays behind the new text. -/
theorem movedFrom_cons_eq_some (hordered : Edit.Ordered (e :: edits)) (hq₀ : old ≤ q₀) :
    movedFrom old new q₀ (e :: edits) = some q ↔
      (q₀ < e.range.start ∧ q < shift old new e.range.start ∧ shift old new q₀ = q) ∨
      (e.range.stop ≤ q₀ ∧ e.newStop (shift old new e.range.start) ≤ q ∧
        movedFrom e.range.stop (e.newStop (shift old new e.range.start)) q₀ edits = some q) := by
  rw [movedFrom]
  constructor
  · intro h
    split at h
    · rename_i hbefore
      cases h
      exact Or.inl ⟨hbefore, shift_lt_shift hq₀ hbefore, rfl⟩
    · split at h
      · cases h
      · rename_i hstop
        have hnew := le_movedFrom hordered.tail hordered.next (Pos.not_lt.1 hstop) h
        exact Or.inr ⟨Pos.not_lt.1 hstop, hnew, h⟩
  · rintro (⟨hbefore, -, rfl⟩ | ⟨hstop, -, h⟩)
    · rw [if_pos hbefore]
    · have hfirst := Pos.le_trans hordered.head hstop
      rw [if_neg (Pos.not_lt.2 hfirst), if_neg (Pos.not_lt.2 hstop)]
      exact h

/-- Looking back is the inverse of moving on. -/
theorem formerFrom_eq_some (hordered : Edit.Ordered edits)
    (hstart : ∀ e ∈ edits.head?, old ≤ e.range.start) (hq : new ≤ q) :
    formerFrom old new q edits = some q₀ ↔ old ≤ q₀ ∧ movedFrom old new q₀ edits = some q := by
  induction edits generalizing old new with
  | nil =>
    constructor
    · intro h
      cases h
      exact ⟨le_shift hq, congrArg some (shift_cancel hq)⟩
    · rintro ⟨hold, hmoved⟩
      cases hmoved
      exact congrArg some (shift_cancel hold)
  | cons e rest ih =>
    have hle : old ≤ e.range.start := hstart e rfl
    have hnewStop := e.le_newStop (shift old new e.range.start)
    rw [formerFrom]
    by_cases hbefore : q < shift old new e.range.start
    · -- in front of the new text stands what stood in front of the edit
      rw [if_pos hbefore]
      constructor
      · intro h
        cases h
        have hlt : shift new old q < e.range.start := by
          have hback : shift new old q < shift new old (shift old new e.range.start) :=
            shift_lt_shift hq hbefore
          rwa [shift_cancel hle] at hback
        exact ⟨le_shift hq, (movedFrom_cons_eq_some hordered (le_shift hq)).2
          (Or.inl ⟨hlt, hbefore, shift_cancel hq⟩)⟩
      · rintro ⟨hold, h⟩
        rcases (movedFrom_cons_eq_some hordered hold).1 h with ⟨-, -, rfl⟩ | ⟨-, hstop, -⟩
        · exact congrArg some (shift_cancel hold)
        · exact absurd (Pos.lt_of_lt_of_le hbefore hnewStop) (Pos.not_lt.2 hstop)
    · rw [if_neg hbefore]
      by_cases hwithin : q < e.newStop (shift old new e.range.start)
      · -- nothing moves into the new text
        rw [if_pos hwithin]
        constructor
        · intro h
          cases h
        · rintro ⟨hold, h⟩
          rcases (movedFrom_cons_eq_some hordered hold).1 h with ⟨-, hlt, -⟩ | ⟨-, hstop, -⟩
          · exact absurd hlt hbefore
          · exact absurd hwithin (Pos.not_lt.2 hstop)
      · -- behind it the later edits decide
        have hbehind := Pos.not_lt.1 hwithin
        rw [if_neg hwithin, ih hordered.tail hordered.next hbehind]
        constructor
        · rintro ⟨hstop, h⟩
          have hold := Pos.le_trans hle (Pos.le_trans hordered.head hstop)
          exact ⟨hold, (movedFrom_cons_eq_some hordered hold).2 (Or.inr ⟨hstop, hbehind, h⟩)⟩
        · rintro ⟨hold, h⟩
          rcases (movedFrom_cons_eq_some hordered hold).1 h with ⟨-, hlt, -⟩ | ⟨hstop, -, hrest⟩
          · exact absurd hlt hbefore
          · exact ⟨hstop, hrest⟩

/-- The position at a place is the one that moves there. -/
theorem former?_eq_some (p : Patch) : p.former? q = some q₀ ↔ p.moved? q₀ = some q := by
  have h : p.former? q = some q₀ ↔ Pos.zero ≤ q₀ ∧ p.moved? q₀ = some q :=
    formerFrom_eq_some p.ordered (fun e _ => Pos.zero_le e.range.start) (Pos.zero_le q)
  exact h.trans ⟨fun hmoved => hmoved.2, fun hmoved => ⟨Pos.zero_le q₀, hmoved⟩⟩

/-- A patch and its normal form have the same position at every place. -/
theorem former?_normalize (p : Patch) (q : Pos) : p.normalize.former? q = p.former? q := by
  refine Option.ext fun q₀ => ?_
  rw [former?_eq_some, former?_eq_some, moved?_normalize]

/-! ## New texts -/

/-- The new texts stand behind what has been carried over. -/
theorem le_start_of_mem_newRangesFrom (hordered : Edit.Ordered edits)
    (hstart : ∀ e ∈ edits.head?, old ≤ e.range.start) (hr : r ∈ newRangesFrom old new edits) :
    new ≤ r.start := by
  induction edits generalizing old new with
  | nil => cases hr
  | cons e rest ih =>
    have hfirst : new ≤ shift old new e.range.start := le_shift (hstart e rfl)
    rw [newRangesFrom] at hr
    rcases List.mem_cons.1 hr with rfl | hrest
    · exact hfirst
    · have hnext := ih hordered.tail hordered.next hrest
      exact Pos.le_trans (Pos.le_trans hfirst (e.le_newStop _)) hnext

/-- Nothing old stands in a new text. -/
theorem formerFrom_newRangesFrom (hordered : Edit.Ordered edits)
    (hstart : ∀ e ∈ edits.head?, old ≤ e.range.start) (hr : r ∈ newRangesFrom old new edits)
    (hq : r.Contains q) : formerFrom old new q edits = none := by
  induction edits generalizing old new with
  | nil => cases hr
  | cons e rest ih =>
    have hnext := hordered.next
    rw [newRangesFrom] at hr
    rw [formerFrom]
    rcases List.mem_cons.1 hr with rfl | hrest
    · have hfirst : shift old new e.range.start ≤ q := hq.1
      have hwithin : q < e.newStop (shift old new e.range.start) := hq.2
      rw [if_neg (Pos.not_lt.2 hfirst), if_pos hwithin]
    · -- a later text stands behind this one
      have hstop : e.newStop (shift old new e.range.start) ≤ q :=
        Pos.le_trans (le_start_of_mem_newRangesFrom hordered.tail hnext hrest) hq.1
      have hbehind := Pos.le_trans (e.le_newStop (shift old new e.range.start)) hstop
      rw [if_neg (Pos.not_lt.2 hbehind), if_neg (Pos.not_lt.2 hstop)]
      exact ih hordered.tail hnext hrest

theorem former?_newRanges (p : Patch) (hr : r ∈ p.newRanges) (hq : r.Contains q) :
    p.former? q = none :=
  formerFrom_newRangesFrom p.ordered (fun e _ => Pos.zero_le e.range.start) hr hq

/-! ## One edit at a time -/

/-- Positions move along with the place from which they are carried over. -/
theorem movedFrom_rebase (hordered : Edit.Ordered edits)
    (hstart : ∀ e ∈ edits.head?, old ≤ e.range.start) (hq₀ : old ≤ q₀) (hbase : base ≤ new) :
    movedFrom old (shift base base' new) q₀ edits
      = (movedFrom old new q₀ edits).map (shift base base') := by
  induction edits generalizing old new with
  | nil => exact congrArg some (shift_shift_new hbase hq₀).symm
  | cons e rest ih =>
    have hle : old ≤ e.range.start := hstart e rfl
    rw [movedFrom, movedFrom]
    split
    · exact congrArg some (shift_shift_new hbase hq₀).symm
    · split
      · rfl
      · rename_i hstop
        have hfirst : base ≤ shift old new e.range.start := Pos.le_trans hbase (le_shift hle)
        rw [← shift_shift_new hbase hle, ← shift_newStop hfirst]
        exact ih hordered.tail hordered.next
          (Pos.not_lt.1 hstop) (Pos.le_trans hfirst (e.le_newStop _))

/-- A position in front of all edits stays where it is. -/
theorem movedFrom_of_lt (h : ∀ e ∈ edits.head?, q < e.range.start) :
    movedFrom Pos.zero Pos.zero q edits = some q := by
  cases edits with
  | nil => exact congrArg some (shift_same (Pos.zero_le q))
  | cons e rest =>
    rw [movedFrom, if_pos (h e rfl)]
    exact congrArg some (shift_same (Pos.zero_le q))

/-- Edits move a position as the later ones do first and the first one after that. -/
theorem movedFrom_cons (hordered : Edit.Ordered (e :: edits)) (q : Pos) :
    movedFrom Pos.zero Pos.zero q (e :: edits)
      = (movedFrom Pos.zero Pos.zero q edits).bind fun q' =>
          movedFrom Pos.zero Pos.zero q' [e] := by
  have hnext := hordered.next
  have hzero := Pos.zero_le e.range.start
  by_cases hstop : q < e.range.stop
  · -- the later edits leave `q` where it is
    have hstay : movedFrom Pos.zero Pos.zero q edits = some q :=
      movedFrom_of_lt fun f hf => Pos.lt_of_lt_of_le hstop (hnext f hf)
    rw [hstay, Option.bind_some, movedFrom, movedFrom, if_pos hstop, if_pos hstop]
  · -- they move it from the stop of the first edit on, and that stop moves with the first edit
    have hq := Pos.not_lt.1 hstop
    have hstart : ¬ q < e.range.start := Pos.not_lt.2 (Pos.le_trans hordered.head hq)
    have hlater : movedFrom e.range.stop e.range.stop q edits
        = movedFrom Pos.zero Pos.zero q edits := by
      have hzero' := Pos.zero_le e.range.stop
      calc
        movedFrom e.range.stop e.range.stop q edits
            = movedFrom e.range.stop (shift Pos.zero Pos.zero e.range.stop) q edits := by
              rw [shift_same hzero']
        _ = movedFrom Pos.zero Pos.zero q edits := movedFrom_shift hzero' hq hnext
    have hmoved : movedFrom Pos.zero Pos.zero q (e :: edits)
        = (movedFrom Pos.zero Pos.zero q edits).map
            (shift e.range.stop (e.newStop e.range.start)) :=
      calc
        movedFrom Pos.zero Pos.zero q (e :: edits)
            = movedFrom e.range.stop (e.newStop e.range.start) q edits := by
              rw [movedFrom, if_neg hstart, if_neg hstop, shift_same hzero]
        _ = movedFrom e.range.stop
              (shift e.range.stop (e.newStop e.range.start) e.range.stop) q edits := by
              rw [shift_self]
        _ = (movedFrom e.range.stop e.range.stop q edits).map
              (shift e.range.stop (e.newStop e.range.start)) :=
              movedFrom_rebase hordered.tail hnext hq (Pos.le_refl e.range.stop)
        _ = _ := by rw [hlater]
    rw [hmoved]
    cases hrest : movedFrom Pos.zero Pos.zero q edits with
    | none => rfl
    | some q' =>
      have hq' : e.range.stop ≤ q' := le_movedFrom hordered.tail hnext hq (hlater.trans hrest)
      have hstart' : ¬ q' < e.range.start := Pos.not_lt.2 (Pos.le_trans hordered.head hq')
      rw [Option.map_some, Option.bind_some, movedFrom, if_neg hstart', if_neg (Pos.not_lt.2 hq'),
        shift_same hzero, movedFrom]

/-- What stands at a place once all edits are carried out stood, after the later ones alone, at the
place from which the first one has moved it. -/
theorem formerFrom_cons (hordered : Edit.Ordered (e :: edits)) (q : Pos) :
    formerFrom Pos.zero Pos.zero q (e :: edits)
      = (formerFrom Pos.zero Pos.zero q [e]).bind fun q' =>
          formerFrom Pos.zero Pos.zero q' edits := by
  -- looking back undoes moving on, so the order of the two steps is turned round
  have hformer : ∀ {edits : List Edit}, Edit.Ordered edits → ∀ q q₀ : Pos,
      formerFrom Pos.zero Pos.zero q edits = some q₀
        ↔ movedFrom Pos.zero Pos.zero q₀ edits = some q := by
    intro edits h q q₀
    exact former?_eq_some ⟨edits, h⟩
  refine Option.ext fun q₀ => ?_
  rw [hformer hordered, movedFrom_cons hordered, Option.bind_eq_some_iff, Option.bind_eq_some_iff]
  constructor
  · rintro ⟨q', hlater, hfirst⟩
    exact ⟨q', (hformer hordered.alone q q').2 hfirst, (hformer hordered.tail q' q₀).2 hlater⟩
  · rintro ⟨q', hfirst, hlater⟩
    exact ⟨q', (hformer hordered.tail q' q₀).1 hlater, (hformer hordered.alone q q').1 hfirst⟩

end Patch

end Retrace
