import Mathlib.Data.Set.Function
import Mathlib.Order.Bounds.Basic
import Retrace.Proofs.Text.Clamp

/-!
# Conversions — offsets and positions name the same places

The places of a text are the ends of its prefixes.  Each has one offset, a character boundary, and
one position, which lies inside the text.  What is no place stands for one: an offset within a
character for the boundary behind it, a position past a line for the end of that line.

* `Text.posOf_eq_after` — the position of an offset is where the characters in front of it lead;
* `Text.bijOn_posOf`, `Text.posOf_lt_posOf` — the boundaries and the positions inside correspond in
  order;
* `Text.offsetOf_le_offsetOf` — offsets are in the order of positions, inside and outside;
* `Text.fits_iff` — the texts of which all positions are 32-bit numbers;
* `Text.Conversions` — all that two conversions between offsets and positions should do;
* `Text.extentOf_append` — positions measure the text between them.
-/

namespace Retrace

/-- A text reaches as far as reading it from the start leads. -/
theorem Extent.ofText_eq_after (text : List Char) :
    ofText text = ⟨(Pos.zero.after text).line, (Pos.zero.after text).column⟩ := by
  rw [Pos.after_eq_endFrom]
  by_cases h : (ofText text).lines = 0
  · ext <;> simp [endFrom, Pos.zero, h]
  · ext <;> simp [endFrom, Pos.zero, h]

namespace Text

variable {text front middle back : List Char} {o o' : Nat} {p q : Pos}

/-! ## The characters in front of an offset -/

@[simp] theorem takeBytes_nil (o : Nat) : takeBytes o [] = [] := by
  cases o <;> rfl

/-- The position of an offset is where the characters lead that start in front of it. -/
theorem posFrom_eq_after (p : Pos) (text : List Char) (o : Nat) :
    posFrom p text o = p.after (takeBytes o text) := by
  fun_induction posFrom p text o with
  | case1 p o => rw [takeBytes_nil, Pos.after_nil]
  | case2 p c cs => rfl
  | case3 p c cs n ih => rw [takeBytes, Pos.after_cons, ih]

theorem posOf_eq_after (text : List Char) (o : Nat) :
    posOf text o = Pos.zero.after (takeBytes o text) := posFrom_eq_after Pos.zero text o

theorem takeBytes_append_of_le (back : List Char) (h : o ≤ byteLength front) :
    takeBytes o (front ++ back) = takeBytes o front := by
  induction front generalizing o with
  | nil =>
    have hzero : o = 0 := Nat.le_zero.1 h
    subst hzero
    cases back <;> rfl
  | cons c front ih =>
    cases o with
    | zero => rfl
    | succ n =>
      rw [byteLength_cons] at h
      rw [List.cons_append, takeBytes, takeBytes, ih (by omega)]

theorem takeBytes_append_of_ge (back : List Char) (h : byteLength front ≤ o) :
    takeBytes o (front ++ back) = front ++ takeBytes (o - byteLength front) back := by
  induction front generalizing o with
  | nil => rfl
  | cons c front ih =>
    have hpos := c.utf8Size_pos
    rw [byteLength_cons] at h
    obtain ⟨n, rfl⟩ : ∃ n, o = n + 1 := ⟨o - 1, by omega⟩
    rw [List.cons_append, takeBytes, ih (by omega), byteLength_cons, Nat.sub_sub, List.cons_append]

theorem takeBytes_of_ge (h : byteLength text ≤ o) : takeBytes o text = text := by
  have htake := takeBytes_append_of_ge [] h
  rwa [List.append_nil, takeBytes_nil, List.append_nil] at htake

theorem exists_takeBytes_append (o : Nat) (text : List Char) :
    ∃ back, text = takeBytes o text ++ back := by
  fun_induction takeBytes o text with
  | case1 o => exact ⟨[], rfl⟩
  | case2 c cs => exact ⟨c :: cs, rfl⟩
  | case3 n c cs ih =>
    obtain ⟨back, hback⟩ := ih
    exact ⟨back, congrArg (c :: ·) hback⟩

/-- The characters in front of an offset reach at least to it. -/
theorem le_byteLength_takeBytes (h : o ≤ byteLength text) : o ≤ byteLength (takeBytes o text) := by
  fun_induction takeBytes o text with
  | case1 o => exact h
  | case2 c cs => exact Nat.zero_le _
  | case3 n c cs ih =>
    rw [byteLength_cons] at h ⊢
    have hrest := ih (by omega)
    omega

/-- They reach to the first boundary that is not in front of it. -/
theorem isLeast_byteLength_takeBytes (h : o ≤ byteLength text) :
    IsLeast {b | Boundary text b ∧ o ≤ b} (byteLength (takeBytes o text)) := by
  obtain ⟨rest, hrest⟩ := exists_takeBytes_append o text
  constructor
  · exact ⟨⟨takeBytes o text, ⟨rest, hrest.symm⟩, rfl⟩, le_byteLength_takeBytes h⟩
  · rintro b ⟨hboundary, hb⟩
    obtain ⟨front, back, rfl, rfl⟩ := boundary_iff.1 hboundary
    obtain ⟨left, hleft⟩ := exists_takeBytes_append o front
    calc byteLength (takeBytes o (front ++ back))
        = byteLength (takeBytes o front) := by rw [takeBytes_append_of_le back hb]
      _ ≤ byteLength (takeBytes o front ++ left) := by
          rw [byteLength_append]
          exact Nat.le_add_right _ _
      _ = byteLength front := by rw [← hleft]

/-! ## Boundaries and positions inside -/

theorem posOf_offsetOf (h : Inside text p) : posOf text (offsetOf text p) = p := clamp_of_inside h

theorem offsetOf_posOf (h : Boundary text o) : offsetOf text (posOf text o) = o := by
  obtain ⟨front, back, rfl, rfl⟩ := boundary_iff.1 h
  rw [posOf_append, offsetOf_append]

theorem inside_posOf (text : List Char) (o : Nat) : Inside text (posOf text o) := by
  obtain ⟨back, hback⟩ := exists_takeBytes_append o text
  rw [posOf_eq_after]
  exact inside_iff.2 ⟨takeBytes o text, back, hback, rfl⟩

theorem boundary_offsetOf (text : List Char) (p : Pos) : Boundary text (offsetOf text p) := by
  obtain ⟨front, hlongest, hoffset⟩ := exists_longest text p
  obtain ⟨back, rfl⟩ := hlongest.isPrefix
  rw [hoffset]
  exact boundary_byteLength front back

theorem Boundary.le (h : Boundary text o) : o ≤ byteLength text := by
  obtain ⟨front, back, rfl, rfl⟩ := boundary_iff.1 h
  rw [byteLength_append]
  exact Nat.le_add_right _ _

theorem invOn_offsetOf_posOf (text : List Char) :
    Set.InvOn (offsetOf text) (posOf text) {o | Boundary text o} {p | Inside text p} :=
  ⟨fun _ ho => offsetOf_posOf ho, fun _ hp => posOf_offsetOf hp⟩

theorem bijOn_posOf (text : List Char) :
    Set.BijOn (posOf text) {o | Boundary text o} {p | Inside text p} :=
  (invOn_offsetOf_posOf text).bijOn (fun o _ => inside_posOf text o)
    (fun p _ => boundary_offsetOf text p)

/-! ## Order -/

/-- Of two boundaries the later one has the later position. -/
theorem posOf_lt_posOf (ho : Boundary text o) (ho' : Boundary text o') (h : o < o') :
    posOf text o < posOf text o' := by
  obtain ⟨front, back, htext, rfl⟩ := boundary_iff.1 ho
  obtain ⟨front', back', htext', rfl⟩ := boundary_iff.1 ho'
  obtain ⟨middle, hmiddle, rfl, -⟩ := prefix_of_byteLength_lt (htext.symm.trans htext') h
  have hpos : posOf text (byteLength front) = Pos.zero.after front := by
    rw [htext, posOf_append]
  have hpos' : posOf text (byteLength (front ++ middle)) = (Pos.zero.after front).after middle := by
    rw [htext', posOf_append, Pos.after_append]
  rw [hpos, hpos']
  exact Pos.lt_after _ hmiddle

/-- Offsets are in the order of the positions, wherever these lie. -/
theorem offsetOf_le_offsetOf (text : List Char) (h : p ≤ q) : offsetOf text p ≤ offsetOf text q := by
  obtain ⟨front, hlongest, hoffset⟩ := exists_longest text p
  obtain ⟨front', hlongest', hoffset'⟩ := exists_longest text q
  obtain ⟨back, htext⟩ := hlongest.isPrefix
  obtain ⟨back', htext'⟩ := hlongest'.isPrefix
  -- the longest prefix for `p` does not reach past `q` either
  have hp : Pos.zero.after front ≤ p := (hlongest.le_iff front back htext).2 (Pos.le_refl _)
  have hle : Pos.zero.after front ≤ Pos.zero.after front' :=
    (hlongest'.le_iff front back htext).1 (Pos.le_trans hp h)
  obtain ⟨middle, rfl, -⟩ := prefix_of_after_le Pos.zero (htext.symm.trans htext') hle
  rw [hoffset, hoffset', byteLength_append]
  exact Nat.le_add_right _ _

/-! ## Positions outside -/

theorem line_lt_of_inside (h : Inside text p) : p.line < (lines text).length := by
  obtain ⟨line, hline, -⟩ := h
  exact (List.getElem?_eq_some_iff.1 hline).1

/-- There are 2^32 lines at most, and each has fewer than 2^32 characters. -/
theorem fits_iff :
    Fits text ↔ (lines text).length ≤ 0x100000000 ∧
      ∀ line ∈ lines text, line.length < 0x100000000 := by
  constructor
  · intro h
    constructor
    · by_contra hlong
      have hlast : 0x100000000 < (lines text).length := by omega
      have hinside : Inside text ⟨0x100000000, 0⟩ :=
        ⟨_, List.getElem?_eq_getElem hlast, Nat.zero_le _⟩
      exact Nat.lt_irrefl _ (h _ hinside).1
    · intro line hline
      obtain ⟨l, hl, hget⟩ := List.mem_iff_getElem.1 hline
      have hinside : Inside text ⟨l, line.length⟩ :=
        ⟨line, List.getElem?_eq_some_iff.2 ⟨hl, hget⟩, Nat.le_refl _⟩
      exact (h _ hinside).2
  · rintro ⟨hcount, hlength⟩ p ⟨line, hline, hcolumn⟩
    have hl := (List.getElem?_eq_some_iff.1 hline).1
    have hshort := hlength line (List.mem_of_getElem? hline)
    exact ⟨by omega, by omega⟩

/-- A position past the end of its line stands for that end. -/
theorem clamp_of_lineEnd {line : List Char} (hline : (lines text)[p.line]? = some line)
    (h : line.length ≤ p.column) : clamp text p = ⟨p.line, line.length⟩ := by
  have hend : Inside text ⟨p.line, line.length⟩ := ⟨line, hline, Nat.le_refl _⟩
  have hge : (⟨p.line, line.length⟩ : Pos) ≤ clamp text p :=
    (le_clamp_iff hend).2 (Or.inr ⟨rfl, h⟩)
  have hle := clamp_le text p
  obtain ⟨line', hline', hcolumn⟩ := inside_clamp text p
  rw [Pos.le_iff] at hge hle
  simp only at hge
  have hsame : (clamp text p).line = p.line := by omega
  rw [hsame, hline, Option.some.injEq] at hline'
  subst hline'
  ext
  · exact hsame
  · simp only
    omega

theorem offsetOf_of_lineEnd {line : List Char} (hline : (lines text)[p.line]? = some line)
    (h : line.length ≤ p.column) : offsetOf text p = offsetOf text ⟨p.line, line.length⟩ := by
  rw [← clamp_of_lineEnd hline h, offsetOf_clamp]

/-- A line past the last one stands for the end of the text. -/
theorem offsetOf_of_textEnd (h : (lines text).length ≤ p.line) :
    offsetOf text p = byteLength text := by
  refine Nat.le_antisymm (boundary_offsetOf text p).le ?_
  have hend : offsetOf text (Pos.zero.after text) = byteLength text := by
    have happend := offsetOf_append text []
    rwa [List.append_nil] at happend
  have hinside : Inside text (Pos.zero.after text) := by
    have hafter := inside_after text []
    rwa [List.append_nil] at hafter
  have hline := line_lt_of_inside hinside
  rw [← hend]
  exact offsetOf_le_offsetOf text (Or.inl (by omega))

/-! ## The conversions together -/

/-- Two conversions between the offsets and the positions of a text, as they should be. -/
structure Conversions (text : List Char) (offset : Pos → Nat) (pos : Nat → Pos) : Prop where
  bijOn : Set.BijOn pos {o | Boundary text o} {p | Inside text p}
  invOn : Set.InvOn offset pos {o | Boundary text o} {p | Inside text p}
  pos_lt : ∀ o o', Boundary text o → Boundary text o' → o < o' → pos o < pos o'
  offset_le : ∀ p q, p ≤ q → offset p ≤ offset q
  lineEnd : ∀ p line, (lines text)[p.line]? = some line → line.length ≤ p.column →
    offset p = offset ⟨p.line, line.length⟩
  textEnd : ∀ p, (lines text).length ≤ p.line → offset p = byteLength text
  within : ∀ o, o ≤ byteLength text →
    ∃ o', IsLeast {b | Boundary text b ∧ o ≤ b} o' ∧ pos o = pos o'
  past : ∀ o, byteLength text ≤ o → pos o = pos (byteLength text)

theorem conversions (text : List Char) : Conversions text (offsetOf text) (posOf text) where
  bijOn := bijOn_posOf text
  invOn := invOn_offsetOf_posOf text
  pos_lt _ _ ho ho' h := posOf_lt_posOf ho ho' h
  offset_le _ _ h := offsetOf_le_offsetOf text h
  lineEnd _ _ hline h := offsetOf_of_lineEnd hline h
  textEnd _ h := offsetOf_of_textEnd h
  within o h := by
    obtain ⟨back, hback⟩ := exists_takeBytes_append o text
    have hpos : posOf text (byteLength (takeBytes o text)) = Pos.zero.after (takeBytes o text) := by
      have happend := posOf_append (takeBytes o text) back
      rwa [← hback] at happend
    exact ⟨byteLength (takeBytes o text), isLeast_byteLength_takeBytes h,
      by rw [posOf_eq_after, hpos]⟩
  past o h := by
    rw [posOf_eq_after, posOf_eq_after, takeBytes_of_ge h, takeBytes_of_ge (Nat.le_refl _)]

/-- The positions at the ends of a stretch of text measure it. -/
theorem extentOf_append (front middle back : List Char) :
    extentOf (front ++ middle ++ back) ⟨byteLength front, byteLength (front ++ middle)⟩
      = Extent.ofText middle := by
  have hstart : posOf (front ++ middle ++ back) (byteLength front) = Pos.zero.after front := by
    rw [List.append_assoc, posOf_append]
  have hstop : posOf (front ++ middle ++ back) (byteLength (front ++ middle))
      = (Extent.ofText middle).endFrom (Pos.zero.after front) := by
    rw [posOf_append, Pos.after_append, Pos.after_eq_endFrom _ middle]
  rw [extentOf, rangeOf, hstart, hstop, Extent.ofRange, Extent.between_endFrom]

end Text

end Retrace
