import Retrace.Text.Span

/-!
# Patches: sets of replacements against one text

* `Edit` — one replacement;
* `Patch` — edits in order, none of which reaches into the next;
* `Patch.ofEdits`, `Patch.ofUnsorted` — building a patch, or saying which edit is in the way;
* `Patch.normalize` — joining edits that touch and dropping those that do nothing;
* `Patch.newRanges` — where the replacement texts stand afterwards;
* `Patch.apply` — the edited text.

The order is a field of `Patch`, so nothing that is given a patch has to check it again.
-/

namespace Retrace

/-! ## Single edits -/

structure Edit where
  range : Range
  text : String
deriving DecidableEq, Repr, Inhabited

namespace Edit

def insert (p : Pos) (text : String) : Edit := ⟨Range.emptyAt p, text⟩

def delete (r : Range) : Edit := ⟨r, ""⟩

/-- Neither removes nor inserts anything. -/
def IsEmpty (e : Edit) : Prop := e.range.IsEmpty ∧ e.text = ""

instance (e : Edit) : Decidable e.IsEmpty := inferInstanceAs (Decidable (_ ∧ _))

/-- One edit that does the work of two that touch. -/
def join (e f : Edit) : Edit := ⟨e.range.cover f.range, e.text ++ f.text⟩

/-- The one ends no later than the other starts. -/
def Precedes (e f : Edit) : Prop := e.range.stop ≤ f.range.start

instance (e f : Edit) : Decidable (e.Precedes f) :=
  inferInstanceAs (Decidable (e.range.stop ≤ f.range.start))

/-- Every edit runs forward, and each precedes the next. -/
def Ordered : List Edit → Prop
  | [] => True
  | [e] => e.range.Forward
  | e :: f :: rest => e.range.Forward ∧ e.Precedes f ∧ Ordered (f :: rest)

instance decidableOrdered : (edits : List Edit) → Decidable (Ordered edits)
  | [] => isTrue trivial
  | [e] => inferInstanceAs (Decidable e.range.Forward)
  | e :: f :: rest =>
    have := decidableOrdered (f :: rest)
    inferInstanceAs (Decidable (e.range.Forward ∧ e.Precedes f ∧ Ordered (f :: rest)))

theorem Ordered.tail {e : Edit} {edits : List Edit} (h : Ordered (e :: edits)) : Ordered edits := by
  cases edits with
  | nil => trivial
  | cons f rest => exact h.2.2

theorem Ordered.head {e : Edit} {edits : List Edit} (h : Ordered (e :: edits)) :
    e.range.Forward := by
  cases edits with
  | nil => exact h
  | cons f rest => exact h.1

/-- Putting an edit in front of ordered ones that all start after it. -/
theorem Ordered.cons {e : Edit} {edits : List Edit} (he : e.range.Forward)
    (h : Ordered edits) (hnext : ∀ f ∈ edits.head?, e.Precedes f) : Ordered (e :: edits) := by
  cases edits with
  | nil => exact he
  | cons f rest => exact ⟨he, hnext f rfl, h⟩

/-- Two edits that touch may be replaced by their join. -/
theorem Ordered.join {e f : Edit} {rest : List Edit} (h : Ordered (e :: f :: rest))
    (htouch : e.range.stop = f.range.start) : Ordered (e.join f :: rest) := by
  have hcover := Range.cover_of_touch h.head h.tail.head htouch
  refine Ordered.cons ?_ h.tail.tail ?_
  · rw [Edit.join, hcover]
    exact Pos.le_trans h.head (htouch ▸ h.tail.head)
  · intro g hg
    cases rest with
    | nil => cases hg
    | cons g' rest' =>
      cases hg
      simpa [Precedes, Edit.join, hcover] using h.2.2.2.1

/-- An edit that covers nothing may be left out. -/
theorem Ordered.skip {e f : Edit} {rest : List Edit} (h : Ordered (e :: f :: rest))
    (hempty : f.range.IsEmpty) : Ordered (e :: rest) := by
  refine Ordered.cons h.head h.tail.tail ?_
  intro g hg
  cases rest with
  | nil => cases hg
  | cons g' rest' =>
    cases hg
    have hstart : f.range.start = f.range.stop := hempty
    exact Pos.le_trans h.2.1 (hstart ▸ h.2.2.2.1)

end Edit

/-! ## Patches -/

structure Patch where
  edits : List Edit
  ordered : Edit.Ordered edits
deriving DecidableEq, Repr

instance : Inhabited Patch := ⟨⟨[], trivial⟩⟩

namespace Patch

/-- Why edits do not make a patch. -/
inductive Fault where
  | reversed (range : Range)
  | clash (later earlier : Range)
deriving DecidableEq, Repr

/-- The first two neighbours of which the second starts before the first has ended. -/
def firstClash? : List Edit → Option (Edit × Edit)
  | e :: f :: rest => if e.Precedes f then firstClash? (f :: rest) else some (e, f)
  | _ => none

theorem ordered_of_firstClash? {edits : List Edit} (hf : ∀ e ∈ edits, e.range.Forward)
    (hc : firstClash? edits = none) : Edit.Ordered edits := by
  induction edits with
  | nil => trivial
  | cons e rest ih =>
    cases rest with
    | nil => exact hf e (by simp)
    | cons f rest =>
      unfold firstClash? at hc
      split at hc
      · rename_i he
        exact ⟨hf e (by simp), he, ih (fun g hg => hf g (by simp [hg])) hc⟩
      · cases hc

/-- Edits in order make a patch.  A reversed range is reported before a clash. -/
def ofEdits (edits : List Edit) : Except Fault Patch :=
  match hr : edits.find? (fun e => ¬ e.range.Forward) with
  | some e => .error (.reversed e.range)
  | none =>
    match hc : firstClash? edits with
    | some (e, f) => .error (.clash f.range e.range)
    | none => .ok ⟨edits, ordered_of_firstClash? (by simpa using hr) hc⟩

/-- Puts the edits in order first; equal ranges keep the order they are given in. -/
def ofUnsorted (edits : List Edit) : Except Fault Patch :=
  ofEdits (edits.mergeSort fun e f => (compare e.range f.range).isLE)

/-- The patch of a single edit. -/
def single (e : Edit) : Except Fault Patch := ofEdits [e]

/-! ## Normal form -/

/-- Joins what touches `last` and drops what is empty, `last` itself being kept. -/
def normalizeFrom (last : Edit) : List Edit → List Edit
  | [] => [last]
  | e :: rest =>
    -- an empty edit that touches is joined too, and leaves no trace
    if last.range.stop = e.range.start then normalizeFrom (last.join e) rest
    else if e.IsEmpty then normalizeFrom last rest
    else last :: normalizeFrom e rest

def normalizeEdits : List Edit → List Edit
  | [] => []
  | e :: rest => if e.IsEmpty then normalizeEdits rest else normalizeFrom e rest

/-- The edit kept first still starts where it did. -/
theorem start_head_normalizeFrom {last : Edit} {edits : List Edit}
    (h : Edit.Ordered (last :: edits)) :
    ∀ f ∈ (normalizeFrom last edits).head?, f.range.start = last.range.start := by
  fun_induction normalizeFrom last edits with
  | case1 last => simp
  | case2 last e rest htouch ih =>
    intro f hf
    rw [ih (h.join htouch) f hf, Edit.join, Range.cover_of_touch h.head h.tail.head htouch]
  | case3 last e rest htouch hempty ih => exact ih (h.skip hempty.1)
  | case4 last e rest htouch hempty ih => simp

theorem ordered_normalizeFrom {last : Edit} {edits : List Edit}
    (h : Edit.Ordered (last :: edits)) : Edit.Ordered (normalizeFrom last edits) := by
  fun_induction normalizeFrom last edits with
  | case1 last => exact h
  | case2 last e rest htouch ih => exact ih (h.join htouch)
  | case3 last e rest htouch hempty ih => exact ih (h.skip hempty.1)
  | case4 last e rest htouch hempty ih =>
    refine Edit.Ordered.cons h.head (ih h.tail) ?_
    intro f hf
    unfold Edit.Precedes
    rw [start_head_normalizeFrom h.tail f hf]
    exact h.2.1

theorem ordered_normalizeEdits {edits : List Edit} (h : Edit.Ordered edits) :
    Edit.Ordered (normalizeEdits edits) := by
  fun_induction normalizeEdits edits with
  | case1 => trivial
  | case2 e rest hempty ih => exact ih h.tail
  | case3 e rest hempty => exact ordered_normalizeFrom h

/-- Joins edits that touch and removes edits that do nothing. -/
def normalize (p : Patch) : Patch := ⟨normalizeEdits p.edits, ordered_normalizeEdits p.ordered⟩

/-! ## The edited text -/

/-- Where the start of the next edit stands, given where the end of the previous one went. -/
def shift (prevOld prevNew start : Pos) : Pos :=
  if start.line = prevOld.line then
    ⟨prevNew.line, prevNew.column + (start.column - prevOld.column)⟩
  else
    ⟨start.line + prevNew.line - prevOld.line, start.column⟩

def newRangesFrom (prevOld prevNew : Pos) : List Edit → List Range
  | [] => []
  | e :: rest =>
    let new := (Extent.ofText e.text.toList).rangeFrom (shift prevOld prevNew e.range.start)
    new :: newRangesFrom e.range.stop new.stop rest

/-- The ranges that the replacement texts occupy in the edited text. -/
def newRanges (p : Patch) : List Range := newRangesFrom Pos.zero Pos.zero p.edits

/-- Copies `text` with the edits carried out; what precedes offset `done` is behind already. -/
def applyFrom (text : List Char) (done : Nat) : List Edit → List Char
  | [] => Text.dropBytes done text
  | e :: rest =>
    let span := Text.spanOf text e.range
    -- nothing is taken where the edit starts at or before `done`
    Text.takeBytes (span.start - done) (Text.dropBytes done text)
      ++ e.text.toList ++ applyFrom text (max done span.stop) rest

def apply (p : Patch) (text : String) : String :=
  String.ofList (applyFrom text.toList 0 p.edits)

end Patch

end Retrace
