import Retrace.Proofs.SourceMap.Mapped
import Retrace.Proofs.SourceMap.Written
import Retrace.Proofs.Text.Guarded
import Retrace.Proofs.Text.Place

/-!
# Conserved — no mapped segment is lost, added or doubled

What a segment replaces when it is written has no origin, so the mapped segments that are written are
those that have been written before, and the new ones.

* `Propagation.Clear` — no mapped segment stands at the column reached;
* `Propagation.mapped_copyPart`, `Propagation.mapped_copy`, `Propagation.mapped_insert` — what each
  operation adds;
* `Propagation.mapped_carry` — the run over all edits, by induction on them;
* `Propagation.lines_copy_all` — without edits everything is written as it is;
* `Mappings.mapped_applyPatch_place` — the mapped segments of a patched text;
* `Mappings.mapped_applyPatch` — the same with the new ranges in 32-bit numbers.
-/

namespace Retrace

namespace Propagation

variable {m : Mappings} {w : Propagation} {line : List Segment} {start : Nat} {stop? : Option Nat}
  {s t : Segment}

/-- The mapped segments that have been written, with their positions. -/
def mapped (w : Propagation) : List (Pos × Origin) := w.lines.mapped

/-- Nothing stands behind the column reached, and nothing with an origin at it. -/
def Clear (w : Propagation) : Prop :=
  ∀ t ∈ w.current, t.column ≤ w.column ∧ (t.column = w.column → t.origin = none)

theorem mapped_eq (w : Propagation) :
    w.mapped = Mappings.mappedFrom 0 w.finished.reverse
      ++ Segment.mapped w.finished.length w.current.reverse := by
  rw [mapped, lines, List.reverse_cons, Mappings.mapped, Mappings.mappedFrom_append,
    Mappings.mappedFrom_singleton, List.length_reverse, Nat.zero_add]

/-! ## Pushing -/

/-- What is replaced has no origin. -/
theorem mapped_push (h : ∀ t ∈ w.current, t.column = s.column → t.origin = none) :
    (w.push s).mapped = w.mapped ++ Segment.mapped w.finished.length [s] := by
  rw [mapped_eq, mapped_eq, push_finished, List.append_assoc, ← Segment.mapped_append]
  unfold push
  split
  · rename_i last rest hcurrent
    split
    · rename_i hcolumn
      have hlast : Segment.mapped w.finished.length [last] = [] := by
        rw [Segment.mapped, List.filterMap_cons, h last (hcurrent ▸ List.mem_cons_self) hcolumn]
        rfl
      rw [hcurrent, List.reverse_cons, List.reverse_cons, Segment.mapped_append,
        Segment.mapped_append, Segment.mapped_append, hlast, List.append_nil]
    · rw [hcurrent, List.reverse_cons]
  · rename_i hcurrent
    rw [hcurrent]
    rfl

/-- Of two segments at one column only the second one is left. -/
theorem push_push (h : s.column = t.column) : (w.push s).push t = w.push t := by
  rcases w with ⟨finished, _ | ⟨last, rest⟩, column⟩
  · simp only [push, h, if_true]
  · by_cases hlast : last.column = t.column
    · simp only [push, h, hlast, if_true]
    · simp only [push, h, hlast, if_false, if_true]

theorem mapped_foldl_push {segments : List Segment} (hincreasing : Segment.Increasing segments)
    (h : ∀ t ∈ w.current, ∀ s ∈ segments, t.column = s.column → t.origin = none) :
    (segments.foldl push w).mapped = w.mapped ++ Segment.mapped w.finished.length segments := by
  induction segments generalizing w with
  | nil => exact (List.append_nil _).symm
  | cons s rest ih =>
    rcases List.pairwise_cons.1 hincreasing with ⟨hfirst, hrest⟩
    have hpush := mapped_push fun t ht => h t ht s List.mem_cons_self
    have hclear : ∀ t ∈ (w.push s).current, ∀ u ∈ rest, t.column = u.column → t.origin = none := by
      intro t ht u hu hcolumn
      rcases mem_push ht with rfl | hcurrent
      · exact absurd hcolumn (Nat.ne_of_lt (hfirst u hu))
      · exact h t hcurrent u (List.mem_cons_of_mem s hu) hcolumn
    rw [List.foldl_cons, ih hrest hclear, hpush, push_finished, List.append_assoc,
      ← Segment.mapped_append]
    rfl

/-! ## Parts of a line -/

/-- The segments of a part, by their columns alone. -/
def inPart (start : Nat) (stop? : Option Nat) (s : Segment) : Bool :=
  start ≤ s.column && stop?.all fun stop => s.column < stop

theorem kept_eq_filter (hsorted : Segment.Sorted line) :
    ((line.dropWhile fun s => s.column < start).takeWhile fun s =>
        stop?.all fun stop => s.column < stop)
      = line.filter (inPart start stop?) := by
  rw [Segment.dropWhile_eq_filter hsorted]
  cases stop? with
  | none =>
    refine (List.takeWhile_eq_self_iff.2 fun _ _ => rfl).trans ?_
    exact List.filter_congr fun s _ => (Bool.and_true _).symm
  | some stop =>
    have hback := hsorted.sublist (List.filter_sublist (p := fun s => decide (start ≤ s.column)))
    simp only [Option.all_some]
    rw [Segment.takeWhile_eq_filter hback, List.filter_filter]
    exact List.filter_congr fun s _ => Bool.and_comm _ _

/-- The end of a part that has been copied is clear. -/
theorem clear_copyOpen {stop : Nat} (hclear : w.Clear) (hsorted : Segment.Sorted line)
    (hroom : Room line w.column start (some stop)) (hstop : 0 < start → start < stop) :
    ∀ t ∈ (w.copyOpen line start (some stop)).current, t.column ≤ w.column + (stop - start) ∧
      (t.column = w.column + (stop - start) → t.origin = none) := by
  intro t ht
  rcases mem_copyOpen hsorted ht with hcurrent | ⟨s, -, hlt, rfl⟩ | ⟨s, hs, hle, hlt, rfl⟩
  · rcases hclear t hcurrent with ⟨hcolumn, horigin⟩
    exact ⟨by omega, fun hend => horigin (by omega)⟩
  · have hpart := hstop (Nat.lt_of_le_of_lt (Nat.zero_le _) hlt)
    simp only [Segment.moveTo]
    omega
  · have hmoved := movedColumn_eq hle (hroom s hs hle hlt)
    have hend := hlt stop rfl
    simp only [Segment.moveTo, hmoved]
    omega

/-- The segments of a part as they are written. -/
def moved (column start : Nat) (stop? : Option Nat) (line : List Segment) : List Segment :=
  (line.filter (inPart start stop?)).map fun s => s.moveTo (column + (s.column - start))

theorem copyOpen_eq (hsorted : Segment.Sorted line) (hroom : Room line w.column start stop?) :
    w.copyOpen line start stop?
      = (moved w.column start stop? line).foldl push
          ((((line.filter fun s => s.column < start).getLast?).map
            fun s => s.moveTo w.column).elim w w.push) := by
  have hmoved : (line.filter (inPart start stop?)).map
        (fun s => s.moveTo (movedColumn w.column start s)) = moved w.column start stop? line := by
    refine List.map_congr_left fun s hs => ?_
    rw [← kept_eq_filter hsorted] at hs
    rcases mem_kept hsorted hs with ⟨hmem, hle, hlt⟩
    rw [movedColumn_eq hle (hroom s hmem hle hlt)]
  rw [copyOpen, kept_eq_filter hsorted, Segment.takeWhile_eq_filter hsorted, hmoved]

theorem increasing_moved (hincreasing : Segment.Increasing line) (column : Nat) :
    Segment.Increasing (moved column start stop? line) := by
  refine List.pairwise_map.2 (List.Pairwise.imp_of_mem ?_ (hincreasing.filter _))
  intro s t hs ht hlt
  have hle := (List.mem_filter.1 hs).2
  simp only [inPart, Bool.and_eq_true, decide_eq_true_eq] at hle
  simp only [Segment.moveTo]
  omega

/-- A segment at the start of the part is the first one of it. -/
theorem moved_eq_cons (hincreasing : Segment.Increasing line) (hs : s ∈ line)
    (hcolumn : s.column = start) (hstop : ∀ stop ∈ stop?, start < stop) (column : Nat) :
    ∃ rest, moved column start stop? line = s.moveTo column :: rest := by
  have hpart : inPart start stop? s = true := by
    rw [inPart, hcolumn, Bool.and_eq_true, decide_eq_true_iff, Option.all_eq_true]
    exact ⟨Nat.le_refl start, fun stop hmem => decide_eq_true (hstop stop hmem)⟩
  have hmem := List.mem_filter.2 ⟨hs, hpart⟩
  have hfilter := hincreasing.filter (inPart start stop?)
  rw [moved]
  cases hkept : line.filter (inPart start stop?) with
  | nil =>
    rw [hkept] at hmem
    cases hmem
  | cons t rest =>
    -- whatever came first would stand in front of the start
    have ht : inPart start stop? t = true := (List.mem_filter.1 (hkept ▸ List.mem_cons_self)).2
    rw [inPart, Bool.and_eq_true, decide_eq_true_iff] at ht
    rw [hkept] at hmem hfilter
    rcases List.mem_cons.1 hmem with rfl | hrest
    · refine ⟨rest.map fun s => s.moveTo (column + (s.column - start)), ?_⟩
      rw [List.map_cons, hcolumn, Nat.sub_self, Nat.add_zero]
    · have hlt := (List.pairwise_cons.1 hfilter).1 s hrest
      omega

theorem le_of_mem_moved {column : Nat} (ht : t ∈ moved column start stop? line) :
    column ≤ t.column := by
  rcases List.mem_map.1 ht with ⟨s, -, rfl⟩
  exact Nat.le_add_right _ _

/-- Without a segment at the start of the part all of its segments stand behind it. -/
theorem lt_of_mem_moved {column : Nat} (hnone : ¬ ∃ s ∈ line, s.column = start)
    (ht : t ∈ moved column start stop? line) : column < t.column := by
  rcases List.mem_map.1 ht with ⟨s, hs, rfl⟩
  rcases List.mem_filter.1 hs with ⟨hmem, hpart⟩
  rw [inPart, Bool.and_eq_true, decide_eq_true_iff] at hpart
  have hne : s.column ≠ start := fun hcolumn => hnone ⟨s, hmem, hcolumn⟩
  simp only [Segment.moveTo]
  omega

/-- The segments of a part follow what has been written. -/
theorem mapped_foldl_push_moved (hclear : w.Clear) (hincreasing : Segment.Increasing line)
    (start : Nat) (stop? : Option Nat) :
    ((moved w.column start stop? line).foldl push w).mapped
      = w.mapped ++ Segment.mapped w.finished.length (moved w.column start stop? line) := by
  refine mapped_foldl_push (increasing_moved hincreasing w.column) fun t ht u hu hcolumn => ?_
  rcases hclear t ht with ⟨hreached, horigin⟩
  have hle := le_of_mem_moved hu
  exact horigin (by omega)

/-- Behind a segment that is carried over, too, unless one of them takes its place. -/
theorem mapped_foldl_push_opened (hclear : w.Clear) (hincreasing : Segment.Increasing line)
    (hnone : ¬ ∃ s ∈ line, s.column = start) (s : Segment) :
    ((moved w.column start stop? line).foldl push (w.push (s.moveTo w.column))).mapped
      = w.mapped ++ s.origin.toList.map (w.pos, ·)
        ++ Segment.mapped w.finished.length (moved w.column start stop? line) := by
  have hopen : (w.push (s.moveTo w.column)).mapped
      = w.mapped ++ s.origin.toList.map (w.pos, ·) := by
    rw [mapped_push fun t ht hcolumn => (hclear t ht).2 hcolumn, Segment.mapped_singleton]
    rfl
  have hbehind : ∀ t ∈ (w.push (s.moveTo w.column)).current,
      ∀ u ∈ moved w.column start stop? line, t.column = u.column → t.origin = none := by
    intro t ht u hu hcolumn
    have hlt := lt_of_mem_moved hnone hu
    have hle : t.column ≤ w.column := by
      rcases mem_push ht with rfl | hcurrent
      · exact Nat.le_refl _
      · exact (hclear t hcurrent).1
    omega
  rw [mapped_foldl_push (increasing_moved hincreasing w.column) hbehind, hopen, push_finished]

/-- The part of a line adds the segment that covers its start, unless there is one at the start, and
the segments of the part. -/
theorem mapped_copyOpen (hclear : w.Clear) (hincreasing : Segment.Increasing line)
    (hroom : Room line w.column start stop?)
    (hstop : ∀ stop ∈ stop?, 0 < start → start < stop) :
    (w.copyOpen line start stop?).mapped
      = w.mapped ++ (Segment.carried? line start).toList.map (w.pos, ·)
        ++ Segment.mapped w.finished.length (moved w.column start stop? line) := by
  have hplain := mapped_foldl_push_moved hclear hincreasing start stop?
  rw [copyOpen_eq hincreasing.sorted hroom]
  cases hopened : (line.filter fun s => s.column < start).getLast? with
  | none =>
    have hcarried : Segment.carried? line start = none := by
      rw [Segment.carried?, hopened]
      split <;> rfl
    rw [hcarried, Option.toList_none, List.map_nil, List.append_nil]
    exact hplain
  | some s =>
    rw [Option.map_some, Option.elim_some]
    by_cases hexact : ∃ t ∈ line, t.column = start
    · -- the segment at the start takes the place of the one carried over
      have hcarried : Segment.carried? line start = none := if_pos hexact
      rcases hexact with ⟨t, ht, hcolumn⟩
      have hfront : s.column < start :=
        of_decide_eq_true (List.mem_filter.1 (List.mem_of_getLast? hopened)).2
      rcases moved_eq_cons hincreasing ht hcolumn (fun stop hmem => hstop stop hmem (by omega))
        w.column with ⟨rest, hrest⟩
      have hcolumns : (s.moveTo w.column).column = (t.moveTo w.column).column := rfl
      rw [hcarried, Option.toList_none, List.map_nil, List.append_nil, ← hplain, hrest,
        List.foldl_cons, List.foldl_cons, push_push hcolumns]
    · have hcarried : Segment.carried? line start = s.origin := by
        rw [Segment.carried?, if_neg hexact, hopened, Option.bind_some]
      rw [hcarried]
      exact mapped_foldl_push_opened hclear hincreasing hexact s

theorem mapped_copyPart (hclear : w.Clear) (hincreasing : Segment.Increasing line)
    (hroom : Room line w.column start stop?)
    (hstop : ∀ stop ∈ stop?, 0 < start → start < stop) :
    (w.copyPart line start stop?).mapped
      = w.mapped ++ (Segment.carried? line start).toList.map (w.pos, ·)
        ++ Segment.mapped w.finished.length (moved w.column start stop? line) := by
  rw [← mapped_copyOpen hclear hincreasing hroom hstop]
  cases stop? with
  | none => rfl
  | some stop =>
    -- the end mark has no origin, and what it may replace has none
    have hend := clear_copyOpen hclear hincreasing.sorted hroom (hstop stop rfl)
    have hmark := mapped_push (s := Segment.unmapped (w.column + (stop - start)))
      (w := { w.copyOpen line start (some stop) with column := w.column + (stop - start) })
      fun t ht => (hend t ht).2
    rw [copyPart_some, hmark, Segment.mapped_unmapped, List.append_nil]
    rfl

theorem clear_copyPart {stop : Nat} (hclear : w.Clear) (hsorted : Segment.Sorted line)
    (hroom : Room line w.column start (some stop)) (hstop : 0 < start → start < stop) :
    (w.copyPart line start (some stop)).Clear := by
  have hend := clear_copyOpen hclear hsorted hroom hstop
  rw [copyPart_some]
  intro t ht
  rw [push_column]
  rcases mem_push ht with rfl | hopen
  · exact ⟨Nat.le_refl _, fun _ => rfl⟩
  · exact hend t hopen

/-- On an empty line everything is clear. -/
theorem clear_of_current_eq_nil (h : w.current = []) : w.Clear := by
  intro t ht
  rw [h] at ht
  cases ht

/-! ## Stretches of old text -/

variable {done : Pos} {last : Nat}

instance (q : Pos) (last : Nat) (stop? : Option Nat) : Decidable (Before q last stop?) :=
  inferInstanceAs (Decidable (q.line < last ∨ (q.line = last ∧ ∀ stop ∈ stop?, q.column < stop)))

/-- Where the positions of a stretch of old text go. -/
def stretch (done new : Pos) (last : Nat) (stop? : Option Nat) (q : Pos) : Option Pos :=
  if done ≤ q ∧ Before q last stop? then some (Patch.shift done new q) else none

section Stretch

variable {new q : Pos} {i : Nat}

theorem stretch_eq_none (h : q.line < done.line ∨ last < q.line) :
    stretch done new last stop? q = none := by
  refine if_neg ?_
  rintro ⟨hdone, hbefore⟩
  rw [Pos.le_iff] at hdone
  simp only [Before] at hbefore
  omega

/-- The part of line `i` that belongs to the stretch, written at line `k` from `column` on. -/
theorem mapped_moved {k column : Nat} {part? : Option Nat}
    (hpart : ∀ c, (done ≤ ⟨i, c⟩ ∧ Before ⟨i, c⟩ last stop?)
      ↔ start ≤ c ∧ ∀ stop ∈ part?, c < stop)
    (hshift : ∀ c, Patch.shift done new ⟨i, c⟩ = ⟨k, column + (c - start)⟩) :
    Segment.mapped k (moved column start part? line)
      = relocate (stretch done new last stop?) (Segment.mapped i line) := by
  refine Segment.mapped_kept fun s _ => ?_
  have hin : inPart start part? s = true
      ↔ start ≤ s.column ∧ ∀ stop ∈ part?, s.column < stop := by
    rw [inPart, Bool.and_eq_true, decide_eq_true_iff, Option.all_eq_true]
    simp only [decide_eq_true_iff, Option.mem_def]
  rw [stretch, hshift]
  exact if_congr ((hpart s.column).trans hin.symm) rfl rfl

/-- Only the lines of the stretch have a part in it. -/
theorem relocate_stretch (m : Mappings) (hline : done.line ≤ last) :
    relocate (stretch done new last stop?) m.mapped
      = relocate (stretch done new last stop?) (m.onLines done.line (last + 1 - done.line)) := by
  obtain ⟨below, hbelow⟩ : ∃ below, m.length ≤ last + 1 + below := ⟨m.length, by omega⟩
  have hcount : last + 1 + below = done.line + (last + 1 - done.line + below) := by omega
  have hlast : 0 + done.line + (last + 1 - done.line) = last + 1 := by omega
  have hfront : relocate (stretch done new last stop?) (m.onLines 0 done.line) = [] := by
    refine relocate_eq_nil fun x hx => stretch_eq_none (Or.inl ?_)
    have := Mappings.line_of_mem_onLines hx
    omega
  have hback : relocate (stretch done new last stop?) (m.onLines (last + 1) below) = [] := by
    refine relocate_eq_nil fun x hx => stretch_eq_none (Or.inr ?_)
    have := Mappings.line_of_mem_onLines hx
    omega
  rw [Mappings.mapped_eq_onLines hbelow, hcount, Mappings.onLines_add, Mappings.onLines_add, hlast,
    relocate_append, relocate_append, hfront, hback, List.nil_append, List.append_nil,
    Nat.zero_add]

/-- The first line of a stretch, which is the last one, too. -/
theorem mapped_moved_only (hline : done.line = last) :
    Segment.mapped new.line (moved new.column done.column stop? line)
      = relocate (stretch done new last stop?) (Segment.mapped done.line line) := by
  refine mapped_moved (fun c => ?_) fun c => if_pos rfl
  simp only [Pos.le_iff, Before, hline, Nat.lt_irrefl, false_or, true_and]

/-- The first line of several. -/
theorem mapped_moved_first (hline : done.line < last) :
    Segment.mapped new.line (moved new.column done.column none line)
      = relocate (stretch done new last stop?) (Segment.mapped done.line line) := by
  refine mapped_moved (fun c => ?_) fun c => if_pos rfl
  simp [Pos.le_iff, Before, hline]

/-- The last line of several. -/
theorem mapped_moved_last (hline : done.line < last) :
    Segment.mapped (last + new.line - done.line) (moved 0 0 stop? line)
      = relocate (stretch done new last stop?) (Segment.mapped last line) := by
  refine mapped_moved (fun c => ?_) fun c => ?_
  · simp [Pos.le_iff, Before, hline]
  · rw [Patch.shift, if_neg (Nat.ne_of_gt hline), Nat.zero_add, Nat.sub_zero]

end Stretch

/-- The segments on the first line of a stretch and on the whole lines below it. -/
theorem mapped_copyLines (hincreasing : m.Increasing) (hclear : w.Clear)
    (hfits : Fits m w done last stop?) (hline : done.line < last) :
    (w.copyLines m done last).mapped
      = w.mapped ++ (m.carried? done).toList.map (w.pos, ·)
        ++ (relocate (stretch done w.pos last stop?)
              (Segment.mapped done.line (m.line done.line))
          ++ relocate (stretch done w.pos last stop?)
              (m.onLines (done.line + 1) (last - (done.line + 1)))) := by
  have hfirst : Mappings.mappedFrom 0 (w.copyPart (m.line done.line) done.column none).lines
      = w.mapped ++ (m.carried? done).toList.map (w.pos, ·)
        ++ Segment.mapped w.finished.length (moved w.column done.column none (m.line done.line)) :=
    mapped_copyPart hclear (hincreasing.line done.line) (hfits.room_open hline)
      fun stop hmem => by cases hmem
  have hlength : (w.copyPart (m.line done.line) done.column none).lines.length
      = w.finished.length + 1 := by
    rw [length_lines, copyPart_finished]
  have hbetween : relocate (fun q => some ⟨q.line + (w.finished.length + 1) - (done.line + 1),
          q.column⟩) (m.onLines (done.line + 1) (last - (done.line + 1)))
      = relocate (stretch done w.pos last stop?)
          (m.onLines (done.line + 1) (last - (done.line + 1))) := by
    refine relocate_congr fun x hx => ?_
    have hlines := Mappings.line_of_mem_onLines hx
    rw [stretch, if_pos ⟨Or.inl (by omega), Or.inl (by omega)⟩, Patch.shift, if_neg (by omega),
      ← Nat.add_assoc, Nat.add_sub_add_right]
    rfl
  have hempty : ∀ i, Mappings.mappedFrom i [[]] = [] := fun _ => rfl
  rw [mapped, lines_copyLines, Mappings.mapped, Mappings.mappedFrom_append,
    Mappings.mappedFrom_append, hlength, Nat.zero_add, Mappings.mappedFrom_range, hbetween, hempty,
    List.append_nil, hfirst, List.append_assoc, ← mapped_moved_first hline]
  rfl

/-- The segment carried over, and those of the stretch. -/
theorem mapped_copy (hincreasing : m.Increasing) (hclear : w.Clear)
    (hfits : Fits m w done last stop?) (hline : done.line ≤ last)
    (hstop : ∀ stop ∈ stop?, done.line = last → 0 < done.column → done.column < stop) :
    (w.copy m done last stop?).mapped
      = w.mapped ++ (m.carried? done).toList.map (w.pos, ·)
        ++ relocate (stretch done w.pos last stop?) m.mapped := by
  rw [relocate_stretch m hline]
  rcases Nat.lt_or_eq_of_le hline with hlt | heq
  · have hlines : last + 1 - done.line = 1 + (last - (done.line + 1)) + 1 := by omega
    have hlast : done.line + (1 + (last - (done.line + 1))) = last := by omega
    have hend : (w.copy m done last stop?).mapped = (w.copyLines m done last).mapped
        ++ Segment.mapped (last + w.finished.length - done.line) (moved 0 0 stop? (m.line last)) := by
      rw [copy_of_line_ne (Nat.ne_of_lt hlt), mapped_copyPart (clear_of_current_eq_nil rfl)
        (hincreasing.line last) (hfits.room_last hlt) (fun stop _ h => absurd h (Nat.lt_irrefl 0)),
        Segment.carried?_zero, length_copyLines hlt]
      exact congrArg (· ++ _) (List.append_nil _)
    rw [hend, mapped_copyLines hincreasing hclear hfits hlt, hlines, Mappings.onLines_add,
      Mappings.onLines_add, hlast, Mappings.onLines_one, Mappings.onLines_one, relocate_append,
      relocate_append, ← mapped_moved_last hlt, List.append_assoc]
    rfl
  · have hlines : last + 1 - done.line = 1 := by omega
    rw [copy_of_line_eq heq, mapped_copyPart hclear (hincreasing.line done.line)
      (hfits.room_first heq) (fun stop hmem => hstop stop hmem heq), hlines, Mappings.onLines_one,
      ← mapped_moved_only heq]
    rfl

theorem clear_copy {stop : Nat} (hsorted : m.Sorted) (hclear : w.Clear)
    (hfits : Fits m w done last (some stop)) (hline : done.line ≤ last)
    (hstop : done.line = last → 0 < done.column → done.column < stop) :
    (w.copy m done last (some stop)).Clear := by
  rcases Nat.lt_or_eq_of_le hline with hlt | heq
  · rw [copy_of_line_ne (Nat.ne_of_lt hlt)]
    exact clear_copyPart (clear_of_current_eq_nil rfl) (hsorted.line last) (hfits.room_last hlt)
      fun h => absurd h (Nat.lt_irrefl 0)
  · rw [copy_of_line_eq heq]
    exact clear_copyPart hclear (hsorted.line done.line) (hfits.room_first heq) (hstop heq)

/-! ## New text -/

theorem mapped_repeat_newLine (n : Nat) (w : Propagation) :
    (Nat.repeat newLine n w).mapped = w.mapped := by
  induction n with
  | zero => rfl
  | succ n ih =>
    rw [Nat.repeat, mapped, lines_newLine, Mappings.mapped, Mappings.mappedFrom_append]
    exact (List.append_nil _).trans ih

/-- New text adds nothing. -/
theorem mapped_insert (hclear : w.Clear) (e : Extent) : (w.insert e).mapped = w.mapped := by
  have hpush : (w.push (Segment.unmapped w.column)).mapped = w.mapped := by
    rw [mapped_push fun t ht hcolumn => (hclear t ht).2 hcolumn, Segment.mapped_unmapped,
      List.append_nil]
  by_cases h : e.lines = 0
  · simp only [insert, h, if_true]
    exact hpush
  · simp only [insert, h, if_false]
    exact (mapped_repeat_newLine e.lines _).trans hpush

theorem clear_insert (hclear : w.Clear) (e : Extent) : (w.insert e).Clear := by
  by_cases h : e.lines = 0
  · simp only [insert, h, if_true]
    intro t ht
    simp only [push_column]
    rcases mem_push ht with rfl | hcurrent
    · exact ⟨Nat.le_add_right _ _, fun _ => rfl⟩
    · rcases hclear t hcurrent with ⟨hcolumn, horigin⟩
      exact ⟨by omega, fun hend => horigin (by omega)⟩
  · simp only [insert, h, if_false]
    exact clear_of_current_eq_nil (current_repeat_newLine h)

/-! ## All edits -/

section Carry

variable {new : Pos} {e : Edit} {edits : List Edit}

/-- The segments that start over where edits end, each position with the place that it goes to. -/
def reopened (m : Mappings) (stops : List (Pos × Pos)) : List (Pos × Origin) :=
  stops.filterMap fun x => (m.carried? x.1).map (x.2, ·)

/-- Where the positions go that come behind `done`. -/
def movedBehind (done new : Pos) (edits : List Edit) (q : Pos) : Option Pos :=
  if done ≤ q then Patch.movedFrom done new q edits else none

theorem reopened_cons (m : Mappings) (q r : Pos) (stops : List (Pos × Pos)) :
    reopened m ((q, r) :: stops) = (m.carried? q).toList.map (r, ·) ++ reopened m stops := by
  rw [reopened, List.filterMap_cons]
  cases m.carried? q <;> rfl

/-- Writing the old text up to an edit.  If there is none, nothing starts over there. -/
theorem mapped_fill (hincreasing : m.Increasing) (hclear : w.Clear)
    (hroomy : Roomy m done w.pos (e :: edits))
    (hdone : done < e.range.start ∨ done = Pos.zero) :
    (fill m w done e.range.start).mapped
        = w.mapped ++ (m.carried? done).toList.map (w.pos, ·)
          ++ relocate (stretch done w.pos e.range.start.line (some e.range.start.column)) m.mapped ∧
      (fill m w done e.range.start).Clear := by
  have hfits := fits_of_lt hroomy.gap
  by_cases hlt : done < e.range.start
  · have hline := Pos.line_le_of_le (Pos.le_of_lt hlt)
    have hstop : done.line = e.range.start.line → 0 < done.column →
        done.column < e.range.start.column := by
      intro heq _
      rw [Pos.lt_iff] at hlt
      omega
    rw [fill, if_pos hlt]
    refine ⟨mapped_copy hincreasing hclear hfits hline ?_,
      clear_copy hincreasing.sorted hclear hfits hline hstop⟩
    intro stop hmem
    cases hmem
    exact hstop
  · have hzero := hdone.resolve_left hlt
    subst hzero
    have hcarried : m.carried? Pos.zero = none := Segment.carried?_zero _
    have hnothing : relocate (stretch Pos.zero w.pos e.range.start.line
        (some e.range.start.column)) m.mapped = [] := by
      refine relocate_eq_nil fun x _ => if_neg ?_
      rintro ⟨-, hbefore⟩
      have hbefore : x.1.line < e.range.start.line ∨
          x.1.line = e.range.start.line ∧ x.1.column < e.range.start.column :=
        hbefore.imp_right fun h => ⟨h.1, h.2 _ rfl⟩
      rw [Pos.not_lt, Pos.le_iff] at hlt
      simp only [Pos.zero] at hlt
      omega
    rw [fill, if_neg hlt, hcarried, hnothing]
    exact ⟨by simp, hclear⟩

/-- What goes behind `done` goes in front of the first edit, or behind it. -/
theorem relocate_movedBehind (m : Mappings) (new : Pos) (edits : List Edit)
    (hforward : e.range.start ≤ e.range.stop) (hdone : done ≤ e.range.start) :
    (relocate (movedBehind done new (e :: edits)) m.mapped).Perm
      (relocate (stretch done new e.range.start.line (some e.range.start.column)) m.mapped
        ++ relocate (movedBehind e.range.stop (e.newStop (Patch.shift done new e.range.start)) edits)
            m.mapped) := by
  refine relocate_perm fun x _ => ?_
  have hbefore : Before x.1 e.range.start.line (some e.range.start.column)
      ↔ x.1 < e.range.start := by
    simp [Before, Pos.lt_iff]
  simp only [movedBehind, stretch, hbefore]
  by_cases hstart : x.1 < e.range.start
  · have hstop : ¬ e.range.stop ≤ x.1 := fun h =>
      Pos.lt_irrefl _ (Pos.lt_of_lt_of_le hstart (Pos.le_trans hforward h))
    refine Or.inl ⟨?_, if_neg hstop⟩
    rw [Patch.movedFrom, if_pos hstart]
    exact if_congr (and_iff_left hstart).symm rfl rfl
  · have hle : done ≤ x.1 := Pos.le_trans hdone (Pos.not_lt.1 hstart)
    refine Or.inr ⟨?_, if_neg fun h => hstart h.2⟩
    rw [Patch.movedFrom, if_pos hle, if_neg hstart]
    by_cases hstop : x.1 < e.range.stop
    · rw [if_pos hstop, if_neg fun h => Pos.lt_irrefl _ (Pos.lt_of_lt_of_le hstop h)]
    · rw [if_neg hstop, if_pos (Pos.not_lt.1 hstop)]

/-- The run over all edits. -/
theorem mapped_carry (hincreasing : m.Increasing) (hclear : w.Clear)
    (hordered : Edit.Ordered edits) (hapart : Edit.Apart edits)
    (hdone : ∀ e ∈ edits.head?, done < e.range.start ∨ done = Pos.zero)
    (hroomy : Roomy m done w.pos edits) :
    (carry m w done edits).mapped.Perm
      (w.mapped ++ (reopened m ((done, w.pos) :: Patch.stopsFrom done w.pos edits)
        ++ relocate (movedBehind done w.pos edits) m.mapped)) := by
  induction edits generalizing w done with
  | nil =>
    have hall : relocate (movedBehind done w.pos []) m.mapped
        = relocate (stretch done w.pos (max (m.length - 1) done.line) none) m.mapped := by
      refine relocate_congr fun x hx => ?_
      rw [Mappings.mapped_eq_onLines (Nat.le_refl _)] at hx
      have hline := Mappings.line_of_mem_onLines hx
      have hbefore : Before x.1 (max (m.length - 1) done.line) none := by
        simp only [Before, Option.not_mem_none, false_implies, implies_true, and_true]
        omega
      simp only [movedBehind, stretch, hbefore, and_true]
      rfl
    have hnone : reopened m (Patch.stopsFrom done w.pos []) = [] := rfl
    rw [carry_nil, mapped_copy hincreasing hclear hroomy.rest (Nat.le_max_right _ _)
      (fun stop hmem => by cases hmem), hall, reopened_cons, hnone, List.append_nil,
      List.append_assoc]
  | cons e edits ih =>
    have hle : done ≤ e.range.start := by
      rcases hdone e rfl with hlt | rfl
      · exact Pos.le_of_lt hlt
      · exact Pos.zero_le _
    rcases mapped_fill hincreasing hclear hroomy (hdone e rfl) with ⟨hfill, hclearFill⟩
    have hpos := insert_fill_pos (m := m) (w := w) (e := e) hle
    have hroomy' := hroomy.tail hle hordered.head
    rw [← hpos] at hroomy'
    have hrest := ih (clear_insert hclearFill _) hordered.tail hapart.tail
      (fun f hf => Or.inl (hapart.next f hf)) hroomy'
    rw [hpos, mapped_insert hclearFill, hfill] at hrest
    -- the gap is written in front of what starts over behind the edit
    have hsplit := relocate_movedBehind m w.pos edits hordered.head hle
    have hswap := (List.perm_append_comm_assoc _ _ _).trans (hsplit.symm.append_left
      (reopened m ((e.range.stop, e.newStop (Patch.shift done w.pos e.range.start))
        :: Patch.stopsFrom e.range.stop (e.newStop (Patch.shift done w.pos e.range.start)) edits)))
    rw [carry_cons, reopened_cons, Patch.stopsFrom_cons]
    simp only [List.append_assoc] at hrest ⊢
    exact hrest.trans ((hswap.append_left _).append_left _)

end Carry

/-! ## Without edits -/

theorem current_foldl_push {segments : List Segment} (hincreasing : Segment.Increasing segments)
    (h : ∀ t ∈ w.current.head?, ∀ s ∈ segments, t.column < s.column) :
    (segments.foldl push w).current = segments.reverse ++ w.current := by
  induction segments generalizing w with
  | nil => rfl
  | cons s rest ih =>
    rcases List.pairwise_cons.1 hincreasing with ⟨hfirst, hrest⟩
    have hpush : (w.push s).current = s :: w.current := by
      unfold push
      split
      · rename_i last rest' hcurrent
        have hlast := h last (by rw [hcurrent]; rfl) s List.mem_cons_self
        rw [if_neg (Nat.ne_of_lt hlast), hcurrent]
      · rename_i hcurrent
        rw [hcurrent]
    rw [List.foldl_cons, ih hrest, hpush, List.reverse_cons, List.append_assoc]
    · rfl
    · intro t ht u hu
      rw [hpush] at ht
      cases ht
      exact hfirst u hu

/-- On an empty line a whole line is written as it is. -/
theorem copyPart_whole (hcurrent : w.current = []) (hcolumn : w.column = 0)
    (hincreasing : Segment.Increasing line) (hroom : Room line 0 0 none) :
    w.copyPart line 0 none = { w with current := line.reverse } := by
  have hfront : (line.filter fun s => s.column < 0) = [] :=
    List.filter_eq_nil_iff.2 fun s _ => by simp
  have hmoved : moved 0 0 none line = line := by
    rw [moved, List.filter_eq_self.2 fun s _ => by simp [inPart]]
    exact (List.map_congr_left fun s _ => by simp [Segment.moveTo]).trans (List.map_id line)
  have hopen : w.copyPart line 0 none = line.foldl push w := by
    have hroom' : Room line w.column 0 none := by rwa [hcolumn]
    have hcopy := copyOpen_eq hincreasing.sorted hroom'
    rw [hfront, hcolumn, hmoved] at hcopy
    exact hcopy
  have hpushed : (line.foldl push w).current = line.reverse := by
    rw [current_foldl_push hincreasing, hcurrent, List.append_nil]
    intro t ht
    rw [hcurrent] at ht
    cases ht
  rw [hopen, ← hpushed, ← foldl_push_finished (w := w) line, ← foldl_push_column (w := w) line]

/-- What is written of all lines at once is all lines. -/
theorem lines_copy_all (hm : m ≠ []) (hincreasing : m.Increasing)
    (hfits : Fits m Propagation.start Pos.zero (m.length - 1) none) :
    (Propagation.start.copy m Pos.zero (m.length - 1) none).lines = m := by
  have hlength : m.length ≠ 0 := fun h => hm (List.length_eq_zero_iff.1 h)
  have hfirst : ∀ hroom : Room (m.line 0) 0 0 none,
      Propagation.start.copyPart (m.line Pos.zero.line) Pos.zero.column none
        = ⟨[], (m.line 0).reverse, 0⟩ :=
    copyPart_whole rfl rfl (hincreasing.line 0)
  conv => rhs; rw [Mappings.eq_map_line m]
  rcases Nat.eq_or_lt_of_le (Nat.zero_le (m.length - 1)) with hone | hmore
  · have hlines : m.length = 0 + 1 := by omega
    rw [copy_of_line_eq hone, hfirst (hfits.room_first hone), hlines]
    simp [lines]
  · have hlines : m.length = 1 + (m.length - 1 - 1) + 1 := by omega
    have hlast : 0 + (1 + (m.length - 1 - 1)) = m.length - 1 := by omega
    have hall : List.range' 0 m.length
        = [0] ++ List.range' 1 (m.length - 1 - 1) ++ [m.length - 1] := by
      conv => lhs; rw [hlines, ← List.range'_append_1, hlast, ← List.range'_append_1]
      rfl
    rw [copy_of_line_ne (Nat.ne_of_lt hmore), copyPart_whole rfl rfl (hincreasing.line _)
      (hfits.room_last hmore), hall]
    simp only [copyLines, hfirst (hfits.room_open hmore)]
    simp [lines, Pos.zero]

end Propagation

/-! ## Whole patches -/

namespace Mappings

variable {m : Mappings} {p : Patch}

/-- A patch that changes nothing leaves the mappings as they are. -/
theorem applyPatch_of_edits_eq_nil (hm : m ≠ []) (hincreasing : m.Increasing) (hroomy : m.Roomy p)
    (hedits : p.normalize.edits = []) : m.applyPatch p = m := by
  have hrest := hroomy.normalize
  rw [hedits] at hrest
  have hfits := Propagation.Roomy.rest (w := Propagation.start) hrest
  rw [applyPatch_eq_carry, hedits, Propagation.carry_nil]
  rw [Pos.zero, Nat.max_zero] at hfits ⊢
  exact Propagation.lines_copy_all hm hincreasing hfits

/-- The segments that start over behind edits, and the mapped segments that no edit replaces, at
their new places. -/
theorem mapped_applyPatch_perm (hincreasing : m.Increasing) (hroomy : m.Roomy p) :
    (m.applyPatch p).mapped.Perm
      (Propagation.reopened m p.normalize.stops ++ relocate p.normalize.moved? m.mapped) := by
  have hdone : ∀ e ∈ p.normalize.edits.head?, Pos.zero < e.range.start ∨ Pos.zero = Pos.zero :=
    fun _ _ => Or.inr rfl
  have hrun := Propagation.mapped_carry hincreasing
    (Propagation.clear_of_current_eq_nil (w := Propagation.start) rfl) p.normalize.ordered
    (Patch.apart_normalize p) hdone hroomy.normalize
  have hmoved : relocate (Propagation.movedBehind Pos.zero Pos.zero p.normalize.edits) m.mapped
      = relocate p.normalize.moved? m.mapped :=
    relocate_congr fun x _ => if_pos (Pos.zero_le x.1)
  have hcarried : m.carried? Pos.zero = none := Segment.carried?_zero _
  rw [Propagation.reopened_cons, hcarried] at hrun
  rw [← hmoved]
  exact hrun

/-- No mapped segment is lost, added or doubled: those that no edit replaces go where the last edit
in front takes them, and the segment that an edit ends in the middle of starts over behind it. -/
theorem mapped_applyPatch_place (hincreasing : m.Increasing) (hroomy : m.Roomy p) :
    (m.applyPatch p).mapped.Perm
      (((m.mapped.filter fun x => p.normalize.Keeps x.1).map fun x =>
          (p.normalize.place x.1, x.2))
        ++ p.normalize.edits.filterMap fun e =>
          (m.carried? e.range.stop).map (p.normalize.place e.range.stop, ·)) := by
  have hkept : relocate p.normalize.moved? m.mapped
      = (m.mapped.filter fun x => p.normalize.Keeps x.1).map fun x =>
          (p.normalize.place x.1, x.2) := by
    rw [relocate, ← List.filterMap_eq_map, List.filterMap_filter]
    refine List.filterMap_congr fun x _ => ?_
    rw [Patch.moved?_eq]
    by_cases hkeeps : p.normalize.Keeps x.1
    · simp [hkeeps]
    · simp [hkeeps]
  have hreopened : Propagation.reopened m p.normalize.stops
      = p.normalize.edits.filterMap fun e =>
          (m.carried? e.range.stop).map (p.normalize.place e.range.stop, ·) := by
    rw [Propagation.reopened, Patch.stops_eq_map (Patch.apart_normalize p), List.filterMap_map]
    rfl
  rw [← hkept, ← hreopened]
  exact (mapped_applyPatch_perm hincreasing hroomy).trans List.perm_append_comm

/-- The first edit stops at a segment, the second one in the middle of it, and the third one takes a
segment away and stops in the middle of that. -/
def threeStops : Patch :=
  ⟨[Edit.delete ⟨⟨0, 2⟩, ⟨0, 4⟩⟩, Edit.insert ⟨0, 6⟩ "x\ny", ⟨⟨⟨1, 4⟩, ⟨1, 8⟩⟩, "z"⟩], by decide⟩

def fourOrigins : Mappings :=
  [[⟨0, some ⟨0, 0, 0, none⟩⟩, ⟨4, some ⟨0, 0, 4, none⟩⟩, Segment.unmapped 9],
    [⟨2, some ⟨0, 1, 2, none⟩⟩, ⟨6, some ⟨0, 1, 6, some 0⟩⟩]]

/-- Where the new texts of these edits stand. -/
def threeRanges : List Range := [⟨⟨0, 2⟩, ⟨0, 2⟩⟩, ⟨⟨0, 4⟩, ⟨1, 1⟩⟩, ⟨⟨2, 4⟩, ⟨2, 5⟩⟩]

/-- Mappings of a text in which only line `n` has segments. -/
def below (n : Nat) (line : List Segment) : Mappings := List.replicate n [] ++ [line]

theorem line_below (n : Nat) (line : List Segment) (i : Nat) :
    (below n line).line i = if i = n then line else [] := by
  rw [Mappings.line, below, List.getD_eq_getElem?_getD]
  rcases Nat.lt_trichotomy i n with hi | rfl | hi
  · have hlength : i < (List.replicate n ([] : List Segment)).length := by
      rwa [List.length_replicate]
    rw [List.getElem?_append_left hlength, List.getElem?_replicate_of_lt hi,
      if_neg (Nat.ne_of_lt hi)]
    rfl
  · have hlength : (List.replicate i ([] : List Segment)).length ≤ i := by
      rw [List.length_replicate]
    rw [List.getElem?_append_right hlength, List.length_replicate, Nat.sub_self, if_pos rfl]
    rfl
  · have hlength : (List.replicate n ([] : List Segment) ++ [line]).length ≤ i := by
      rw [List.length_append, List.length_replicate]
      exact hi
    rw [List.getElem?_eq_none hlength, if_neg (Nat.ne_of_gt hi)]
    rfl

theorem mapped_below (n : Nat) (line : List Segment) :
    (below n line).mapped = Segment.mapped n line := by
  have hblank : ∀ i, mappedFrom i (List.replicate n []) = [] := by
    induction n with
    | zero => exact fun _ => rfl
    | succ n ih => exact fun i => ih (i + 1)
  rw [mapped, below, mappedFrom_append, hblank, mappedFrom_singleton, List.length_replicate,
    Nat.zero_add, List.nil_append]

/-- Two insertions with a line break between them, so far below that the numbers of their lines add up
to more than 32 bits. -/
def deepInserts : Patch :=
  ⟨[Edit.insert ⟨3000000000, 2⟩ "a", Edit.insert ⟨3000000001, 0⟩ "b"], by decide⟩

end Mappings

end Retrace
