import Mathlib.Data.List.Basic
import Retrace.Proofs.SourceMap.Cover

/-!
# Mapped — the segments with an origin, each at its position

* `Mappings.mapped` — the mapped segments of all lines, with their positions;
* `Mappings.mapped_eq_onLines` — line by line, as if there were more lines;
* `relocate` — some of them, at other positions;
* `Mappings.carried?` — the origin that holds where text starts again after an edit.
-/

namespace Retrace

/-! ## Moving what stands at positions -/

/-- Takes what stands at a position to the place that the position goes to, if it goes anywhere. -/
def relocate (f : Pos → Option Pos) (l : List (Pos × Origin)) : List (Pos × Origin) :=
  l.filterMap fun x => (f x.1).map (·, x.2)

section Relocate

variable {f g h : Pos → Option Pos} {l l' : List (Pos × Origin)}

theorem relocate_append : relocate f (l ++ l') = relocate f l ++ relocate f l' :=
  List.filterMap_append

theorem relocate_congr (hfg : ∀ x ∈ l, f x.1 = g x.1) : relocate f l = relocate g l :=
  List.filterMap_congr fun x hx => congrArg (Option.map (·, x.2)) (hfg x hx)

theorem relocate_eq_nil (hf : ∀ x ∈ l, f x.1 = none) : relocate f l = [] := by
  refine List.filterMap_eq_nil_iff.2 fun x hx => ?_
  rw [hf x hx]
  rfl

theorem relocate_eq_self (hf : ∀ x ∈ l, f x.1 = some x.1) : relocate f l = l := by
  rw [relocate, List.filterMap_congr (g := some), List.filterMap_some]
  intro x hx
  rw [hf x hx]
  rfl

/-- Positions may be moved in two rounds, if each of them takes part in one only. -/
theorem relocate_perm (hsplit : ∀ x ∈ l, f x.1 = g x.1 ∧ h x.1 = none ∨
      f x.1 = h x.1 ∧ g x.1 = none) :
    (relocate f l).Perm (relocate g l ++ relocate h l) := by
  induction l with
  | nil => exact List.Perm.refl _
  | cons x rest ih =>
    have hrest := ih fun y hy => hsplit y (List.mem_cons_of_mem x hy)
    have hcons : ∀ f' : Pos → Option Pos,
        relocate f' (x :: rest) = ((f' x.1).map (·, x.2)).toList ++ relocate f' rest := by
      intro f'
      rw [relocate, List.filterMap_cons]
      cases f' x.1 <;> rfl
    rw [hcons, hcons, hcons]
    rcases hsplit x List.mem_cons_self with ⟨hfirst, hnone⟩ | ⟨hsecond, hnone⟩
    · rw [hfirst, hnone, List.append_assoc]
      exact hrest.append_left _
    · rw [hsecond, hnone]
      refine (hrest.append_left _).trans ?_
      rw [← List.append_assoc, ← List.append_assoc]
      exact List.perm_append_comm.append_right _

end Relocate

/-! ## Segments at positions -/

namespace Segment

/-- Columns increase along the line. -/
def Increasing (line : List Segment) : Prop := line.Pairwise fun s t => s.column < t.column

instance (line : List Segment) : Decidable (Increasing line) :=
  inferInstanceAs (Decidable (line.Pairwise _))

/-- The mapped segments of line `i`. -/
def mapped (i : Nat) (line : List Segment) : List (Pos × Origin) :=
  line.filterMap fun s => s.origin.map ((⟨i, s.column⟩ : Pos), ·)

/-- The origin of the last segment in front of a column, unless there is a segment at the column. -/
def carried? (line : List Segment) (column : Nat) : Option Origin :=
  if ∃ s ∈ line, s.column = column then none
  else (line.filter fun s => s.column < column).getLast?.bind origin

variable {line : List Segment} {i : Nat}

theorem Increasing.sorted (h : Increasing line) : Sorted line := h.imp Nat.le_of_lt

/-- On a sorted line the segments in front of a column are the first ones. -/
theorem takeWhile_eq_filter (h : Sorted line) (c : Nat) :
    (line.takeWhile fun s => s.column < c) = line.filter fun s => s.column < c := by
  have hback : ((line.dropWhile fun s => s.column < c).filter fun s => s.column < c) = [] := by
    refine List.filter_eq_nil_iff.2 fun s hs => ?_
    have hle := le_of_mem_dropWhile h hs
    simpa using hle
  have hfront : ((line.takeWhile fun s => s.column < c).filter fun s => s.column < c)
      = line.takeWhile fun s => s.column < c :=
    List.filter_eq_self.2 fun s hs => decide_eq_true (lt_of_mem_takeWhile hs)
  conv => rhs; rw [← append_takeWhile_dropWhile line c]
  rw [List.filter_append, hback, hfront, List.append_nil]

/-- The segments from a column on are the last ones. -/
theorem dropWhile_eq_filter (h : Sorted line) (c : Nat) :
    (line.dropWhile fun s => s.column < c) = line.filter fun s => c ≤ s.column := by
  have hback : ((line.dropWhile fun s => s.column < c).filter fun s => c ≤ s.column)
      = line.dropWhile fun s => s.column < c :=
    List.filter_eq_self.2 fun s hs => decide_eq_true (le_of_mem_dropWhile h hs)
  have hfront : ((line.takeWhile fun s => s.column < c).filter fun s => c ≤ s.column) = [] := by
    refine List.filter_eq_nil_iff.2 fun s hs => ?_
    have hlt := lt_of_mem_takeWhile hs
    simpa using hlt
  conv => rhs; rw [← append_takeWhile_dropWhile line c]
  rw [List.filter_append, hback, hfront, List.nil_append]

theorem mapped_append (i : Nat) (front back : List Segment) :
    mapped i (front ++ back) = mapped i front ++ mapped i back := List.filterMap_append

theorem mapped_singleton (i : Nat) (s : Segment) :
    mapped i [s] = s.origin.toList.map ((⟨i, s.column⟩ : Pos), ·) := by
  rcases s with ⟨column, _ | o⟩ <;> rfl

/-- What is relocated of a line, segment by segment. -/
theorem relocate_mapped (f : Pos → Option Pos) (i : Nat) (line : List Segment) :
    relocate f (mapped i line)
      = line.filterMap fun s => (f ⟨i, s.column⟩).bind fun q => s.origin.map (q, ·) := by
  rw [relocate, mapped, List.filterMap_filterMap]
  refine List.filterMap_congr fun s _ => ?_
  cases s.origin with
  | none => cases f ⟨i, s.column⟩ <;> rfl
  | some o =>
    rw [Option.map_some, Option.bind_some]
    cases f ⟨i, s.column⟩ <;> rfl

/-- Segments that are kept and moved along a line are relocated. -/
theorem mapped_kept {f : Pos → Option Pos} {keep : Segment → Bool} {k : Nat} {move : Segment → Nat}
    (h : ∀ s ∈ line, f ⟨i, s.column⟩ = if keep s then some ⟨k, move s⟩ else none) :
    mapped k ((line.filter keep).map fun s => s.moveTo (move s)) = relocate f (mapped i line) := by
  rw [relocate_mapped, mapped, List.filterMap_map, List.filterMap_filter]
  refine List.filterMap_congr fun s hs => ?_
  rw [h s hs]
  cases keep s <;> rfl

@[simp] theorem mapped_unmapped (i column : Nat) : mapped i [unmapped column] = [] := rfl

/-- Nothing stands in front of the first column. -/
theorem carried?_zero (line : List Segment) : carried? line 0 = none := by
  have hfront : (line.filter fun s => s.column < 0) = [] :=
    List.filter_eq_nil_iff.2 fun s _ => by simp
  rw [carried?, hfront]
  split <;> rfl

end Segment

namespace Mappings

/-- On every line columns increase. -/
def Increasing (m : Mappings) : Prop := ∀ line ∈ m, Segment.Increasing line

instance (m : Mappings) : Decidable m.Increasing :=
  inferInstanceAs (Decidable (∀ line ∈ m, Segment.Increasing line))

/-- The mapped segments, if the first line is line `i`. -/
def mappedFrom (i : Nat) : Mappings → List (Pos × Origin)
  | [] => []
  | line :: rest => Segment.mapped i line ++ mappedFrom (i + 1) rest

/-- The mapped segments, with their positions. -/
def mapped (m : Mappings) : List (Pos × Origin) := mappedFrom 0 m

/-- The origin of the last segment in front of a position on its line, unless there is a segment at
the position. -/
def carried? (m : Mappings) (q : Pos) : Option Origin :=
  Segment.carried? (m.line q.line) q.column

variable {m : Mappings} {i n : Nat}

theorem Increasing.sorted (h : m.Increasing) : m.Sorted := fun line hline => (h line hline).sorted

theorem Increasing.line (h : m.Increasing) (i : Nat) : Segment.Increasing (m.line i) :=
  forall_line h List.Pairwise.nil i

theorem mappedFrom_append (i : Nat) (m m' : Mappings) :
    mappedFrom i (m ++ m') = mappedFrom i m ++ mappedFrom (i + m.length) m' := by
  induction m generalizing i with
  | nil => rfl
  | cons line rest ih =>
    rw [List.cons_append, mappedFrom, mappedFrom, ih, List.append_assoc, List.length_cons,
      Nat.add_assoc, Nat.add_comm 1]

theorem mappedFrom_singleton (i : Nat) (line : List Segment) :
    mappedFrom i [line] = Segment.mapped i line := List.append_nil _

/-! ## Line by line -/

/-- The mapped segments of `n` lines from line `i` on. -/
def onLines (m : Mappings) (i n : Nat) : List (Pos × Origin) :=
  (List.range' i n).flatMap fun j => Segment.mapped j (m.line j)

theorem onLines_add (m : Mappings) (i n k : Nat) :
    m.onLines i (n + k) = m.onLines i n ++ m.onLines (i + n) k := by
  rw [onLines, ← List.range'_append_1, List.flatMap_append]
  rfl

theorem onLines_one (m : Mappings) (i : Nat) : m.onLines i 1 = Segment.mapped i (m.line i) :=
  List.append_nil _

theorem line_of_mem_mapped {line : List Segment} {x : Pos × Origin}
    (h : x ∈ Segment.mapped i line) : x.1.line = i := by
  rcases List.mem_filterMap.1 h with ⟨s, -, hs⟩
  rcases Option.map_eq_some_iff.1 hs with ⟨o, -, rfl⟩
  rfl

theorem line_of_mem_onLines {x : Pos × Origin} (h : x ∈ m.onLines i n) :
    i ≤ x.1.line ∧ x.1.line < i + n := by
  rcases List.mem_flatMap.1 h with ⟨j, hj, hx⟩
  rw [line_of_mem_mapped hx]
  exact List.mem_range'_1.1 hj

/-- Lines taken out of the mappings and put somewhere else. -/
theorem mappedFrom_range (m : Mappings) (k i n : Nat) :
    mappedFrom k ((List.range' i n).map m.line)
      = relocate (fun q => some ⟨q.line + k - i, q.column⟩) (m.onLines i n) := by
  induction n generalizing k i with
  | zero => rfl
  | succ n ih =>
    have hfirst : Segment.mapped k (m.line i)
        = relocate (fun q => some ⟨q.line + k - i, q.column⟩) (Segment.mapped i (m.line i)) := by
      rw [Segment.relocate_mapped]
      refine List.filterMap_congr fun s _ => ?_
      rw [Nat.add_sub_cancel_left]
      rfl
    have hrest : relocate (fun q => some ⟨q.line + (k + 1) - (i + 1), q.column⟩)
          (m.onLines (i + 1) n)
        = relocate (fun q => some ⟨q.line + k - i, q.column⟩) (m.onLines (i + 1) n) := by
      refine relocate_congr fun x _ => ?_
      rw [← Nat.add_assoc, Nat.add_sub_add_right]
    rw [Nat.add_comm n 1, onLines_add, relocate_append, onLines_one, ← hfirst, ← hrest, ← ih,
      Nat.add_comm 1 n, List.range'_succ]
    rfl

theorem eq_map_line (m : Mappings) : m = (List.range' 0 m.length).map m.line := by
  refine List.ext_getElem (by simp) fun i hi _ => ?_
  simp [line, List.getD_eq_getElem?_getD, List.getElem?_eq_getElem hi]

/-- Lines below the last one have no segments. -/
theorem mapped_eq_onLines (h : m.length ≤ n) : m.mapped = m.onLines 0 n := by
  have hlines : m.mapped = m.onLines 0 m.length := by
    conv => lhs; rw [mapped, eq_map_line m]
    rw [mappedFrom_range]
    exact relocate_eq_self fun x _ => rfl
  have hbelow : m.onLines (0 + m.length) (n - m.length) = [] := by
    refine List.flatMap_eq_nil_iff.2 fun i hi => ?_
    rw [line_eq_nil (Nat.zero_add m.length ▸ (List.mem_range'_1.1 hi).1)]
    rfl
  have hsum : n = m.length + (n - m.length) := (Nat.add_sub_of_le h).symm
  rw [hlines, hsum, onLines_add, hbelow, List.append_nil]

end Mappings

end Retrace
