import Retrace.Proofs.Text.Conversions
import Retrace.Text.LineTable

/-!
# LineTable — looking at one line gives what reading the whole text gives

* `bisect_eq` — halving finds where a predicate ends that holds of the first numbers only;
* `LineTable.starts_getElem?` — the prefixes that end at column zero are what the table lists;
* `LineTable.offsetOf?_ofText`, `LineTable.posOf?_ofText` — the conversions of a table are those of
  its text, and so are those of ranges;
* `LineTable.conversions_ofText` — so they are inverse to one another, keep the order, bring what lies
  outside to the nearest end, and measure the text between two boundaries.
-/

namespace Retrace

/-! ## Halving -/

theorem bisect_eq {p : Nat → Bool} {n low high : Nat} (hlow : low ≤ n) (hhigh : n ≤ high)
    (htrue : ∀ i, i < n → p i = true) (hfalse : ∀ i, n ≤ i → i < high → p i = false) :
    bisect p low high = n := by
  fun_induction bisect p low high with
  | case1 low high hlt middle hp ih =>
    have hmiddle : middle < n := by
      by_contra hge
      have hnot := hfalse middle (by omega) (by omega)
      rw [hp] at hnot
      cases hnot
    exact ih (by omega) hhigh hfalse
  | case2 low high hlt middle hp ih =>
    have hmiddle : n ≤ middle := by
      by_contra hge
      exact hp (htrue middle (by omega))
    exact ih hlow hmiddle fun i hi hlt => hfalse i hi (by omega)
  | case3 low high hle => omega

/-- Halving stays within its bounds, also if the predicate holds here and there. -/
theorem bisect_le {p : Nat → Bool} {low high : Nat} (h : low ≤ high) : bisect p low high ≤ high := by
  fun_induction bisect p low high with
  | case1 low high hlt middle hp ih => exact ih (by omega)
  | case2 low high hlt middle hp ih => exact Nat.le_trans (ih (by omega)) (by omega)
  | case3 low high hle => exact h

namespace Text

variable {text front middle back : List Char} {o k : Nat} {p : Pos}

/-! ## Characters with their offsets -/

theorem charOffsets_append (o : Nat) (front back : List Char) :
    charOffsets o (front ++ back) = charOffsets o front ++ charOffsets (o + byteLength front) back := by
  induction front generalizing o with
  | nil => rfl
  | cons c front ih =>
    rw [List.cons_append, charOffsets, charOffsets, ih, byteLength_cons, List.cons_append,
      Nat.add_assoc]

/-- A character is listed with the number of bytes in front of it. -/
theorem mem_charOffsets {i : Nat} {c : Char} :
    (i, c) ∈ charOffsets o text ↔
      ∃ front back, text = front ++ c :: back ∧ i = o + byteLength front := by
  induction text generalizing o with
  | nil => simp [charOffsets]
  | cons d rest ih =>
    rw [charOffsets, List.mem_cons, ih]
    constructor
    · rintro (hfirst | ⟨front, back, rfl, rfl⟩)
      · cases hfirst
        exact ⟨[], rest, rfl, rfl⟩
      · exact ⟨d :: front, back, rfl, by rw [byteLength_cons, Nat.add_assoc]⟩
    · rintro ⟨front, back, htext, rfl⟩
      cases front with
      | nil =>
        obtain ⟨rfl, rfl⟩ := List.cons.inj htext
        exact Or.inl rfl
      | cons d' front =>
        obtain ⟨rfl, rfl⟩ := List.cons.inj htext
        exact Or.inr ⟨front, back, rfl, by rw [byteLength_cons, Nat.add_assoc]⟩

theorem breaks_append (o : Nat) (front back : List Char) :
    breaks o (front ++ back) = breaks o front ++ breaks (o + byteLength front) back := by
  rw [breaks, charOffsets_append, List.filter_append, List.map_append]
  rfl

theorem breaks_newline (o : Nat) : breaks o ['\n'] = [o + 1] := rfl

theorem breaks_char {c : Char} (hc : c ≠ '\n') (o : Nat) : breaks o [c] = [] := by
  simp [breaks, charOffsets, hc]

theorem length_breaks (o : Nat) (text : List Char) : (breaks o text).length = text.count '\n' := by
  induction text generalizing o with
  | nil => rfl
  | cons c rest ih =>
    have happend := breaks_append o [c] rest
    rw [List.singleton_append] at happend
    rw [happend, List.length_append, ih, List.count_cons]
    by_cases hc : c = '\n'
    · subst hc
      rw [breaks_newline, List.length_singleton, Nat.add_comm]
      rfl
    · simp [breaks_char hc, hc]

/-- The `k`-th character starts where the first `k` end, and past the last one there is the end. -/
theorem elim_charOffsets (o k : Nat) (text : List Char) :
    (charOffsets o text)[k]?.elim (o + byteLength text) Prod.fst = o + byteLength (text.take k) := by
  induction text generalizing o k with
  | nil => simp [charOffsets]
  | cons c rest ih =>
    cases k with
    | zero => rfl
    | succ k =>
      rw [charOffsets, List.getElem?_cons_succ, List.take_succ_cons, byteLength_cons, byteLength_cons,
        ← Nat.add_assoc, ← Nat.add_assoc, ih]

theorem length_takeWhile_charOffsets (s o : Nat) (text : List Char) :
    ((charOffsets s text).takeWhile fun c => c.1 < o).length = (takeBytes (o - s) text).length := by
  induction text generalizing s with
  | nil => simp [charOffsets]
  | cons c rest ih =>
    by_cases h : s < o
    · obtain ⟨n, hn⟩ : ∃ n, o - s = n + 1 := ⟨o - s - 1, by omega⟩
      have hrest : n + 1 - c.utf8Size = o - (s + c.utf8Size) := by omega
      rw [charOffsets, List.takeWhile_cons_of_pos (by simpa using h), List.length_cons, ih, hn,
        takeBytes, List.length_cons, hrest]
    · rw [charOffsets, List.takeWhile_cons_of_neg (by simpa using h), Nat.sub_eq_zero_of_le (by omega)]
      rfl

/-- What is taken of a text starts in front of the offset, to its last character. -/
theorem byteLength_lt_of_takeBytes {c : Char} {rest : List Char}
    (h : takeBytes o text = front ++ c :: rest) : byteLength front < o := by
  fun_induction takeBytes o text generalizing front with
  | case1 o => exact absurd h (by simp)
  | case2 c' cs => exact absurd h (by simp)
  | case3 n c' cs ih =>
    cases front with
    | nil => exact Nat.succ_pos n
    | cons d front =>
      obtain ⟨rfl, hrest⟩ := List.cons.inj h
      have hlt := ih hrest
      rw [byteLength_cons]
      omega

/-! ## Lines -/

theorem length_lines (text : List Char) : (lines text).length = text.count '\n' + 1 := by
  induction text with
  | nil => rfl
  | cons c rest ih =>
    by_cases hc : c = '\n'
    · subst hc
      rw [lines_newline, List.length_cons, ih, List.count_cons_self]
    · rw [lines_cons hc, List.length_modifyHead, ih, List.count_cons_of_ne hc]

theorem inside_lineStart {l : Nat} (h : l < (lines text).length) : Inside text ⟨l, 0⟩ :=
  ⟨_, List.getElem?_eq_getElem h, Nat.zero_le _⟩

/-- Reading a text without line feeds stays on the line. -/
theorem after_of_line_eq (h : (p.after text).line = p.line) :
    p.after text = ⟨p.line, p.column + text.length⟩ := by
  induction text generalizing p with
  | nil => rfl
  | cons c rest ih =>
    have hline := Pos.after_line p (c :: rest)
    by_cases hc : c = '\n'
    · subst hc
      rw [List.count_cons_self] at hline
      omega
    · have hnext : p.next c = ⟨p.line, p.column + 1⟩ := if_neg hc
      rw [Pos.after_cons] at h
      rw [Pos.after_cons, ih (by rw [h, hnext]), hnext, List.length_cons, Nat.add_assoc,
        Nat.add_comm 1]

/-- What ends at column zero is empty or ends in a line feed. -/
theorem eq_nil_or_newline (h : (Pos.zero.after front).column = 0) :
    front = [] ∨ ∃ start, front = start ++ ['\n'] := by
  rcases List.eq_nil_or_concat front with hnil | ⟨start, c, rfl⟩
  · exact Or.inl hnil
  · refine Or.inr ⟨start, ?_⟩
    rw [List.concat_eq_append] at h ⊢
    by_contra hne
    have hc : c ≠ '\n' := by
      rintro rfl
      exact hne rfl
    rw [Pos.after_append, Pos.after_cons, Pos.after_nil, Pos.next, if_neg hc] at h
    cases h

/-- Some characters of a line end on it. -/
theorem after_take_line {l : Nat} (hstart : Pos.zero.after front = ⟨l, 0⟩)
    (hstop : (Pos.zero.after (front ++ middle)).line = l) (k : Nat) :
    Pos.zero.after (front ++ middle.take k) = ⟨l, min k middle.length⟩ := by
  have hline : ((Pos.zero.after front).after (middle.take k)).line = (Pos.zero.after front).line := by
    have hcount := Pos.after_line (Pos.zero.after front) middle
    have hle := (List.take_sublist k middle).count_le '\n'
    rw [← Pos.after_append, hstop, hstart] at hcount
    rw [Pos.after_line]
    simp only at hcount
    omega
  rw [Pos.after_append, after_of_line_eq hline, hstart, List.length_take, Nat.zero_add]

/-- Where a line stands: the text in front of it ends at column zero, and it goes to the next line
feed or to the end. -/
theorem exists_line {l : Nat} {line : List Char} (hline : (lines text)[l]? = some line) :
    ∃ front middle rest, text = front ++ (middle ++ rest) ∧ Pos.zero.after front = ⟨l, 0⟩ ∧
      middle.length = line.length ∧ Pos.zero.after (front ++ middle) = ⟨l, line.length⟩ ∧
      ∀ c ∈ rest.head?, c = '\n' := by
  have hfirst : Inside text ⟨l, 0⟩ := ⟨line, hline, Nat.zero_le _⟩
  have hlast : Inside text ⟨l, line.length⟩ := ⟨line, hline, Nat.le_refl _⟩
  obtain ⟨front, back, hfront, hstart⟩ := exists_prefix_of_inside hfirst
  obtain ⟨front', rest, hfront', hstop⟩ := exists_prefix_of_inside hlast
  have hle : Pos.zero.after front ≤ Pos.zero.after front' := by
    rw [← hstart, ← hstop]
    exact Or.inr ⟨rfl, Nat.zero_le _⟩
  obtain ⟨middle, rfl, rfl⟩ := prefix_of_after_le Pos.zero (hfront.symm.trans hfront') hle
  have hmiddle : (Pos.zero.after front).after middle = ⟨l, line.length⟩ := by
    rw [← Pos.after_append, hstop]
  have hsame : ((Pos.zero.after front).after middle).line = (Pos.zero.after front).line := by
    rw [hmiddle, ← hstart]
  have hlength := after_of_line_eq hsame
  rw [hmiddle, ← hstart] at hlength
  refine ⟨front, middle, rest, hfront, hstart.symm, ?_, hstop.symm, ?_⟩
  · have hcolumn := congrArg Pos.column hlength
    simp only at hcolumn
    omega
  · -- any other character would be one more on the line
    intro c hc
    by_contra hne
    obtain ⟨rest, rfl⟩ : ∃ tail, rest = c :: tail := by
      cases rest with
      | nil => cases hc
      | cons d tail =>
        cases hc
        exact ⟨tail, rfl⟩
    have hnext : Pos.zero.after (front ++ middle ++ [c]) = ⟨l, line.length + 1⟩ := by
      rw [Pos.after_append, ← hstop]
      exact if_neg hne
    have hinside : Inside text ⟨l, line.length + 1⟩ :=
      inside_iff.2 ⟨front ++ middle ++ [c], rest, by rw [hfront']; simp, hnext.symm⟩
    obtain ⟨line', hline', hcolumn⟩ := hinside
    rw [hline] at hline'
    cases hline'
    simp only at hcolumn
    omega

end Text

namespace LineTable

open Text

variable {text front back : List Char}

/-! ## The lines of a table -/

theorem length_starts (text : List Char) :
    (ofText text).starts.length = (lines text).length := by
  rw [ofText, List.length_cons, length_breaks, Text.length_lines]

theorem lineCount_ofText (text : List Char) : (ofText text).lineCount = Text.lineCount text := by
  rw [lineCount, length_starts, Text.length_lines, Text.lineCount]

/-- The prefixes that end at column zero are what the table lists, each at the number of its line. -/
theorem starts_getElem? (back : List Char) (h : (Pos.zero.after front).column = 0) :
    (ofText (front ++ back)).starts[(Pos.zero.after front).line]? = some (byteLength front) := by
  rcases eq_nil_or_newline h with rfl | ⟨start, rfl⟩
  · rfl
  · have hline : (Pos.zero.after (start ++ ['\n'])).line = (breaks 0 start).length + 1 := by
      rw [Pos.after_line, length_breaks, List.count_append, Pos.zero, Nat.zero_add]
      rfl
    rw [ofText, breaks_append, breaks_append, breaks_newline, Nat.zero_add, hline,
      List.getElem?_cons_succ, List.append_assoc, List.getElem?_append_right (Nat.le_refl _),
      Nat.sub_self, byteLength_append]
    rfl

theorem starts_getElem?_of_line {l : Nat} (hfront : Pos.zero.after front = ⟨l, 0⟩) (back : List Char) :
    (ofText (front ++ back)).starts[l]? = some (byteLength front) := by
  have hget := starts_getElem? back (congrArg Pos.column hfront)
  rwa [hfront] at hget

theorem lineSpan?_ofText {l k : Nat} {middle rest : List Char}
    (hstart : Pos.zero.after front = ⟨l, 0⟩) (hstop : Pos.zero.after (front ++ middle) = ⟨l, k⟩)
    (hrest : ∀ c ∈ rest.head?, c = '\n') :
    (ofText (front ++ (middle ++ rest))).lineSpan? l
      = some ⟨byteLength front, byteLength (front ++ middle)⟩ := by
  have hnext : (ofText (front ++ (middle ++ rest))).starts[l + 1]?.elim
      (byteLength (front ++ (middle ++ rest))) (· - 1) = byteLength (front ++ middle) := by
    cases rest with
    | nil =>
      -- the line is the last one
      have hlength : (ofText (front ++ (middle ++ []))).starts.length = l + 1 := by
        rw [List.append_nil, length_starts, Text.length_lines]
        have hcount := Pos.after_line Pos.zero (front ++ middle)
        rw [hstop, Pos.zero, Nat.zero_add] at hcount
        rw [← hcount]
      rw [List.getElem?_eq_none (Nat.le_of_eq hlength), Option.elim_none, List.append_nil]
    | cons c rest =>
      cases hrest c rfl
      have hafter : Pos.zero.after (front ++ middle ++ ['\n']) = ⟨l + 1, 0⟩ := by
        rw [Pos.after_append, hstop]
        rfl
      have hget := starts_getElem?_of_line hafter rest
      have htext : front ++ middle ++ ['\n'] ++ rest = front ++ (middle ++ '\n' :: rest) := by simp
      rw [htext] at hget
      rw [hget, Option.elim_some, byteLength_append (front ++ middle)]
      rfl
  rw [lineSpan?, starts_getElem?_of_line hstart, Option.map_some]
  exact congrArg (fun stop => some (Span.mk (byteLength front) stop)) hnext

/-! ## From positions to offsets -/

theorem offsetOf?_ofText (text : List Char) (p : Pos) :
    (ofText text).offsetOf? p = some (offsetOf text p) := by
  rcases p with ⟨l, k⟩
  rw [offsetOf?, length_starts]
  by_cases hbeyond : (lines text).length ≤ l
  · rw [if_pos hbeyond, offsetOf_of_textEnd (p := ⟨l, k⟩) hbeyond]
    rfl
  · rw [if_neg hbeyond]
    obtain ⟨line, hline⟩ : ∃ line, (lines text)[l]? = some line :=
      ⟨_, List.getElem?_eq_getElem (Nat.lt_of_not_le hbeyond)⟩
    obtain ⟨front, middle, rest, rfl, hstart, hlength, hstop, hrest⟩ := exists_line hline
    have hslice : Span.substring? ⟨byteLength front, byteLength (front ++ middle)⟩
        (ofText (front ++ (middle ++ rest))).text = some middle := substring?_append front middle rest
    have htext : front ++ (middle ++ rest) = front ++ middle.take k ++ (middle.drop k ++ rest) := by
      rw [List.append_assoc, ← List.append_assoc (middle.take k), List.take_append_drop]
    have htake := after_take_line hstart (congrArg Pos.line hstop) k
    simp only [lineSpan?_ofText hstart hstop hrest, Option.bind_eq_bind, Option.bind_some, hslice]
    rw [byteLength_append, elim_charOffsets, ← byteLength_append, Option.pure_def, Option.some.injEq]
    -- the first `k` characters of the line end at column `k`, or at the end of the line
    by_cases hk : k ≤ middle.length
    · rw [Nat.min_eq_left hk] at htake
      rw [htext, ← htake, offsetOf_append]
    · rw [Nat.min_eq_right (by omega), hlength] at htake
      rw [offsetOf_of_lineEnd (p := ⟨l, k⟩) hline (by simp only; omega)]
      simp only
      rw [← htake, htext, offsetOf_append]

theorem spanOf?_ofText (text : List Char) (r : Range) :
    (ofText text).spanOf? r = some (spanOf text r) := by
  rw [spanOf?, offsetOf?_ofText, offsetOf?_ofText]
  rfl

/-! ## From offsets to positions -/

/-- The line of an offset is the last one that does not start behind it. -/
theorem start_le_iff {l o : Nat} (h : l < (ofText text).starts.length) :
    (ofText text).starts.getD l 0 ≤ o ↔ l ≤ (posOf text o).line := by
  rw [length_starts] at h
  obtain ⟨front, back, htext, hstart⟩ := exists_prefix_of_inside (inside_lineStart h)
  obtain ⟨after, hreach⟩ := exists_takeBytes_append o text
  have hget : (ofText text).starts.getD l 0 = byteLength front := by
    rw [List.getD_eq_getElem?_getD, htext, starts_getElem?_of_line hstart.symm, Option.getD_some]
  rw [hget, posOf_eq_after]
  constructor
  · intro hle
    have hafter := Pos.line_le_of_le
      (Pos.le_after (Pos.zero.after front) (takeBytes (o - byteLength front) back))
    rw [← Pos.after_append, ← takeBytes_append_of_ge back hle, ← htext, ← hstart] at hafter
    exact hafter
  · intro hle
    have hpos : Pos.zero.after front ≤ Pos.zero.after (takeBytes o text) := by
      rw [← hstart, Pos.le_iff]
      simp only
      omega
    obtain ⟨middle, hmiddle, -⟩ := prefix_of_after_le Pos.zero (htext.symm.trans hreach) hpos
    cases middle with
    | cons c middle => exact Nat.le_of_lt (byteLength_lt_of_takeBytes hmiddle)
    | nil =>
      -- the last character taken is the line feed in front of the line, a single byte
      rcases eq_nil_or_newline (congrArg Pos.column hstart.symm) with rfl | ⟨start, rfl⟩
      · exact Nat.zero_le _
      · rw [List.append_nil] at hmiddle
        have hlt := byteLength_lt_of_takeBytes hmiddle
        rw [byteLength_append]
        exact hlt

theorem bisect_starts (text : List Char) (o : Nat) :
    bisect (fun i => (ofText text).starts.getD i 0 ≤ o) 0 (ofText text).starts.length
      = (posOf text o).line + 1 := by
  have hline := line_lt_of_inside (inside_posOf text o)
  rw [← length_starts] at hline
  refine bisect_eq (Nat.zero_le _) hline ?_ ?_
  · intro i hi
    exact decide_eq_true ((start_le_iff (by omega)).2 (by omega))
  · intro i hi hlt
    refine decide_eq_false fun hle => ?_
    have hback := (start_le_iff hlt).1 hle
    omega

theorem posOf?_eq (text : List Char) (o : Nat) :
    (ofText text).posOf? o
      = some ⟨(posOf text o).line % 0x100000000, (posOf text o).column % 0x100000000⟩ := by
  have hline := line_lt_of_inside (inside_posOf text o)
  obtain ⟨front, back, htext, hstart⟩ := exists_prefix_of_inside (inside_lineStart hline)
  have hget : (ofText text).starts[(posOf text o).line]? = some (byteLength front) := by
    rw [htext] at hstart ⊢
    exact starts_getElem?_of_line hstart.symm back
  have hrest : Span.substring? ⟨byteLength front, byteLength (ofText text).text⟩ (ofText text).text
      = some back := by
    have hslice := substring?_append front back []
    rwa [List.append_nil, ← htext] at hslice
  -- the characters taken of the text are those in front of the line and some on it
  have hle : byteLength front ≤ o := by
    have hstarts : (ofText text).starts.getD (posOf text o).line 0 = byteLength front := by
      rw [List.getD_eq_getElem?_getD, hget, Option.getD_some]
    rw [← hstarts]
    exact (start_le_iff (by rwa [length_starts])).2 (Nat.le_refl _)
  have hreach : posOf text o = (Pos.zero.after front).after (takeBytes (o - byteLength front) back) := by
    rw [posOf_eq_after]
    conv_lhs => rw [htext, takeBytes_append_of_ge back hle, Pos.after_append]
  have hcolumn : (posOf text o).column = (takeBytes (o - byteLength front) back).length := by
    have hline : ((Pos.zero.after front).after (takeBytes (o - byteLength front) back)).line
        = (Pos.zero.after front).line := by
      rw [← hreach, ← hstart]
    have hsame := after_of_line_eq hline
    rw [← hreach, ← hstart] at hsame
    exact (congrArg Pos.column hsame).trans (Nat.zero_add _)
  rw [posOf?]
  simp only [bisect_starts, Nat.add_sub_cancel, hget, hrest, Option.bind_eq_bind, Option.bind_some,
    length_takeWhile_charOffsets, hcolumn]
  rfl

theorem posOf?_ofText (h : Fits text) (o : Nat) : (ofText text).posOf? o = some (posOf text o) := by
  obtain ⟨hline, hcolumn⟩ := h _ (inside_posOf text o)
  rw [posOf?_eq, Nat.mod_eq_of_lt hline, Nat.mod_eq_of_lt hcolumn]

theorem rangeOf?_ofText (h : Fits text) (s : Span) :
    (ofText text).rangeOf? s = some (rangeOf text s) := by
  rw [rangeOf?, posOf?_ofText h, posOf?_ofText h]
  rfl

/-! ## Measuring -/

/-- Two boundaries in order are the ends of a prefix and of a longer one. -/
theorem exists_cut {s t : Nat} (hs : Boundary text s) (ht : Boundary text t) (h : s ≤ t) :
    ∃ front middle back, text = front ++ (middle ++ back) ∧ s = byteLength front ∧
      t = byteLength (front ++ middle) := by
  obtain ⟨front, back, htext, rfl⟩ := boundary_iff.1 hs
  obtain ⟨front', back', htext', rfl⟩ := boundary_iff.1 ht
  obtain ⟨middle, rfl, rfl⟩ := prefix_of_byteLength_le (htext.symm.trans htext') h
  exact ⟨front, middle, back', htext, rfl, rfl⟩

theorem extentOf?_ofText (h : Fits text) (s : Span) :
    (ofText text).extentOf? s = some (extentOf text s) := by
  rw [extentOf?, rangeOf?_ofText h, Option.map_some, extentOf]

/-- The last line of a text tells how far the text reaches. -/
theorem extent?_ofText (h : Fits text) : (ofText text).extent? = some (Extent.ofText text) := by
  rw [Extent.ofText_eq_after]
  have hend : Inside text (Pos.zero.after text) := inside_iff.2 ⟨text, [], by simp, rfl⟩
  obtain ⟨hline, hcolumn⟩ := h _ hend
  have hstarts : (ofText text).starts.length = (Pos.zero.after text).line + 1 := by
    rw [length_starts, Text.length_lines, Pos.after_line, Pos.zero, Nat.zero_add]
  -- the last line starts at `front`, and nothing follows it
  obtain ⟨front, middle, htext, hstart⟩ :=
    exists_prefix_of_inside (inside_lineStart (line_lt_of_inside hend))
  have hreach : (Pos.zero.after front).after middle = Pos.zero.after text := by
    rw [← Pos.after_append, ← htext]
  have hsame : ((Pos.zero.after front).after middle).line = (Pos.zero.after front).line := by
    rw [hreach, ← hstart]
  have hlength := after_of_line_eq hsame
  rw [hreach, ← hstart, Nat.zero_add] at hlength
  have hspan : (ofText text).lineSpan? (Pos.zero.after text).line
      = some ⟨byteLength front, byteLength text⟩ := by
    have hlast := @lineSpan?_ofText front _ middle.length middle [] hstart.symm
      (by rw [← htext, hlength]) (fun c hc => by cases hc)
    rwa [List.append_nil, ← htext] at hlast
  have hslice : Span.substring? ⟨byteLength front, byteLength text⟩ (ofText text).text
      = some middle := by
    have happend := substring?_append front middle []
    rwa [List.append_nil, ← htext] at happend
  have hcolumns := congrArg Pos.column hlength
  simp only at hcolumns
  rw [extent?, hstarts]
  simp only [Nat.add_sub_cancel, hspan, Option.bind_eq_bind, Option.bind_some, hslice, ← hcolumns,
    Nat.mod_eq_of_lt hline, Nat.mod_eq_of_lt hcolumn]
  rfl

/-- The table of a text converts every position and every offset.  The two conversions are inverse to
one another between the boundaries and the positions inside, in order, and bring everything else to
the nearest of these.  What they make of two boundaries measures the text between them, and so does
the table itself for the whole text. -/
theorem conversions_ofText (text : List Char) (h : Fits text) :
    ∃ offset pos, (∀ p, (ofText text).offsetOf? p = some (offset p)) ∧
      (∀ o, (ofText text).posOf? o = some (pos o)) ∧ Conversions text offset pos ∧
      (∀ s t, Boundary text s → Boundary text t → s ≤ t →
        ∃ part, Span.substring? ⟨s, t⟩ text = some part ∧
          (ofText text).extentOf? ⟨s, t⟩ = some (Extent.ofText part)) ∧
      (ofText text).extent? = some (Extent.ofText text) := by
  refine ⟨offsetOf text, posOf text, offsetOf?_ofText text, posOf?_ofText h, conversions text, ?_,
    extent?_ofText h⟩
  intro s t hs ht hle
  obtain ⟨front, middle, back, rfl, rfl, rfl⟩ := exists_cut hs ht hle
  refine ⟨middle, substring?_append front middle back, ?_⟩
  rw [extentOf?_ofText h, ← List.append_assoc, extentOf_append]

/-- Two lines with characters of one, two and three bytes. -/
def wide : List Char := "é;\nü€".toList

theorem conversions_ofText_wide :
    Fits wide ∧ (ofText wide).extentOf? ⟨2, 6⟩ = some ⟨1, 1⟩ ∧ (ofText wide).extent? = some ⟨1, 2⟩ ∧
      (ofText wide).offsetOf? ⟨0, 9⟩ = (ofText wide).offsetOf? ⟨0, 2⟩ ∧
      (ofText wide).offsetOf? ⟨7, 0⟩ = some 9 ∧
      (ofText wide).posOf? 99 = (ofText wide).posOf? 9 ∧
      ∃ o, IsLeast {b | Boundary wide b ∧ 8 ≤ b} o ∧ (ofText wide).posOf? 8 = (ofText wide).posOf? o := by
  have hfits : Fits wide := fits_iff.2 ⟨by decide, by decide⟩
  obtain ⟨offset, pos, hoffset, hpos, hconv, hextent, hwhole⟩ := conversions_ofText wide hfits
  have hboundary : ∀ n, Boundary wide (byteLength (wide.take n)) :=
    fun n => ⟨wide.take n, List.take_prefix n wide, rfl⟩
  obtain ⟨part, hpart, hmeasure⟩ := hextent 2 6 (hboundary 1) (hboundary 4) (by decide)
  have hslice : Span.substring? ⟨2, 6⟩ wide = some ";\nü".toList := by decide
  rw [hslice] at hpart
  cases hpart
  obtain ⟨o, hleast, hsame⟩ := hconv.within 8 (by decide)
  refine ⟨hfits, hmeasure, hwhole, ?_, ?_, ?_, o, hleast, ?_⟩
  · rw [hoffset, hoffset, hconv.lineEnd ⟨0, 9⟩ "é;".toList (by decide) (by decide)]
    rfl
  · rw [hoffset, hconv.textEnd ⟨7, 0⟩ (by decide)]
    rfl
  · rw [hpos, hpos, hconv.past 99 (by decide)]
    rfl
  · rw [hpos, hpos, hsame]

end LineTable

end Retrace
