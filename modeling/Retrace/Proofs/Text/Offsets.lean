import Retrace.Proofs.Text.Measure

/-!
# Offsets — positions, byte offsets and prefixes of a text

A place in a text is the end of a prefix.  Its position is what reading the prefix leads to, its
offset is the number of bytes of the prefix, and both conversions go from the one to the other.

* `Text.Inside` — a position on a line that exists, at a column the line has;
* `Text.inside_iff` — the positions inside a text are the ends of its prefixes;
* `Text.Boundary` — an offset at which a character may start;
* `Text.splitBytes?_eq_some`, `Text.substring?_eq_some` — a text can be cut at the ends of prefixes,
  and nowhere else;
* `Text.posOf_append`, `Text.offsetOf_append` — the conversions at the end of a prefix;
* `Text.prefix_of_after_le`, `Text.prefix_of_byteLength_le` — two prefixes of one text extend each
  other as their ends are ordered.
-/

namespace Retrace

/-! ## Positions of a text -/

namespace Text

/-- The lines of a text, without the line breaks between them. -/
def lines (text : List Char) : List (List Char) := text.splitOn '\n'

/-- The line exists, and it has at least as many characters as the column says. -/
def Inside (text : List Char) (p : Pos) : Prop :=
  ∃ line, (lines text)[p.line]? = some line ∧ p.column ≤ line.length

instance (text : List Char) (p : Pos) : Decidable (Inside text p) :=
  match h : (lines text)[p.line]? with
  | none => isFalse (by rintro ⟨line, hline, -⟩; rw [h] at hline; cases hline)
  | some line =>
    decidable_of_iff (p.column ≤ line.length)
      ⟨fun hcolumn => ⟨line, h, hcolumn⟩, by rintro ⟨line', hline, hcolumn⟩; grind⟩

/-- Every line and column of the text is a 32-bit number. -/
def Fits (text : List Char) : Prop := ∀ p, Inside text p → p.line < 0x100000000 ∧ p.column < 0x100000000

/-- A character starts at this offset, or the text ends there. -/
def Boundary (text : List Char) (o : Nat) : Prop := ∃ front, front <+: text ∧ byteLength front = o

theorem lines_newline (rest : List Char) : lines ('\n' :: rest) = [] :: lines rest := by
  simp [lines, List.splitOn_cons_eq_if_modifyHead]

theorem lines_cons {c : Char} (h : c ≠ '\n') (rest : List Char) :
    lines (c :: rest) = (lines rest).modifyHead (c :: ·) := by
  simp [lines, List.splitOn_cons_eq_if_modifyHead, h]

theorem inside_zero (text : List Char) : Inside text Pos.zero := by
  rcases List.exists_cons_of_ne_nil (List.splitOn_ne_nil '\n' text) with ⟨line, others, h⟩
  exact ⟨line, by simp [lines, h, Pos.zero], Nat.zero_le _⟩

/-! ## Prefixes as positions -/

theorem after_newline (front : List Char) :
    Pos.zero.after ('\n' :: front)
      = ⟨(Pos.zero.after front).line + 1, (Pos.zero.after front).column⟩ := by
  rw [Pos.after_cons, Pos.after_eq_endFrom, Pos.after_eq_endFrom]
  by_cases h : (Extent.ofText front).lines = 0
  · simp [Extent.endFrom, Pos.next, Pos.zero, h]
  · simp [Extent.endFrom, Pos.next, Pos.zero, h, Nat.add_comm]

theorem after_char {c : Char} (hc : c ≠ '\n') (front : List Char) :
    Pos.zero.after (c :: front)
      = if (Pos.zero.after front).line = 0 then ⟨0, (Pos.zero.after front).column + 1⟩
        else Pos.zero.after front := by
  rw [Pos.after_cons, Pos.after_eq_endFrom, Pos.after_eq_endFrom]
  by_cases h : (Extent.ofText front).lines = 0
  · simp [Extent.endFrom, Pos.next, Pos.zero, hc, h, Nat.add_comm]
  · simp [Extent.endFrom, Pos.next, Pos.zero, hc, h]

theorem inside_after (front back : List Char) : Inside (front ++ back) (Pos.zero.after front) := by
  induction front with
  | nil => exact inside_zero back
  | cons c front ih =>
    rcases ih with ⟨line, hline, hcolumn⟩
    by_cases hc : c = '\n'
    · subst hc
      refine ⟨line, ?_, ?_⟩
      · rw [after_newline, List.cons_append, lines_newline]
        exact hline
      · rw [after_newline]
        exact hcolumn
    · rw [List.cons_append, after_char hc, Inside, lines_cons hc]
      -- only the first line gets longer
      split
      · rename_i hzero
        rw [hzero] at hline
        refine ⟨c :: line, ?_, by simpa using hcolumn⟩
        rw [List.getElem?_modifyHead, hline]
        rfl
      · rename_i hzero
        refine ⟨line, ?_, hcolumn⟩
        rw [List.getElem?_modifyHead, if_neg hzero, hline]

theorem exists_prefix_of_inside {text : List Char} {p : Pos} (h : Inside text p) :
    ∃ front back, text = front ++ back ∧ p = Pos.zero.after front := by
  induction text generalizing p with
  | nil =>
    -- there is one line, and it is empty
    rcases h with ⟨line, hline, hcolumn⟩
    refine ⟨[], [], rfl, ?_⟩
    rcases p with ⟨l, k⟩
    cases l with
    | zero =>
      simp only [lines, List.splitOn_nil, List.getElem?_cons_zero, Option.some.injEq] at hline
      subst hline
      simp only [List.length_nil, Nat.le_zero] at hcolumn
      exact congrArg (Pos.mk 0) hcolumn
    | succ l => simp [lines] at hline
  | cons c rest ih =>
    rcases p with ⟨l, k⟩
    rcases h with ⟨line, hline, hcolumn⟩
    by_cases hc : c = '\n'
    · subst hc
      rw [lines_newline] at hline
      cases l with
      | zero =>
        -- the first line is empty
        simp only [List.getElem?_cons_zero, Option.some.injEq] at hline
        subst hline
        simp only [List.length_nil, Nat.le_zero] at hcolumn
        exact ⟨[], _, rfl, congrArg (Pos.mk 0) hcolumn⟩
      | succ l =>
        -- the position lies as many lines into `rest`, less the one that ends here
        obtain ⟨front, back, hrest, hp⟩ := ih (p := ⟨l, k⟩) ⟨line, hline, hcolumn⟩
        refine ⟨'\n' :: front, back, by rw [hrest, List.cons_append], ?_⟩
        rw [after_newline, ← hp]
    · rw [lines_cons hc, List.getElem?_modifyHead] at hline
      cases l with
      | zero =>
        cases k with
        | zero => exact ⟨[], _, rfl, rfl⟩
        | succ k =>
          -- on the first line `c` takes up one column
          simp only [if_true] at hline
          rcases Option.map_eq_some_iff.1 hline with ⟨line', hline', rfl⟩
          have hk : k ≤ line'.length := by simpa using hcolumn
          obtain ⟨front, back, hrest, hp⟩ := ih (p := ⟨0, k⟩) ⟨line', hline', hk⟩
          refine ⟨c :: front, back, by rw [hrest, List.cons_append], ?_⟩
          rw [after_char hc, ← hp]
          rfl
      | succ l =>
        have hline' : (lines rest)[l + 1]? = some line := by simpa using hline
        obtain ⟨front, back, hrest, hp⟩ := ih (p := ⟨l + 1, k⟩) ⟨line, hline', hcolumn⟩
        refine ⟨c :: front, back, by rw [hrest, List.cons_append], ?_⟩
        rw [after_char hc, ← hp]
        rfl

/-- The positions inside a text are the ends of its prefixes. -/
theorem inside_iff {text : List Char} {p : Pos} :
    Inside text p ↔ ∃ front back, text = front ++ back ∧ p = Pos.zero.after front := by
  constructor
  · exact exists_prefix_of_inside
  · rintro ⟨front, back, rfl, rfl⟩
    exact inside_after front back

/-- A short text has small positions. -/
theorem fits_of_length_lt {text : List Char} (h : text.length < 0x100000000) : Fits text := by
  intro p hp
  rcases inside_iff.1 hp with ⟨front, back, rfl, rfl⟩
  have hafter := Pos.after_le_length Pos.zero front
  simp only [List.length_append] at h
  simp only [Pos.zero, Nat.zero_add] at hafter
  exact ⟨Nat.lt_of_le_of_lt hafter.1 (by omega), Nat.lt_of_le_of_lt hafter.2 (by omega)⟩

/-! ## Prefixes as offsets -/

@[simp] theorem byteLength_nil : byteLength [] = 0 := rfl

@[simp] theorem byteLength_cons (c : Char) (text : List Char) :
    byteLength (c :: text) = c.utf8Size + byteLength text := rfl

@[simp] theorem byteLength_append (front back : List Char) :
    byteLength (front ++ back) = byteLength front + byteLength back := by
  induction front with
  | nil => exact (Nat.zero_add _).symm
  | cons c front ih => rw [List.cons_append, byteLength_cons, ih, byteLength_cons, Nat.add_assoc]

theorem byteLength_eq_zero {text : List Char} : byteLength text = 0 ↔ text = [] := by
  cases text with
  | nil => simp
  | cons c rest =>
    have := c.utf8Size_pos
    simp only [byteLength_cons, reduceCtorEq, iff_false]
    omega

/-- A character in front accounts for its own bytes. -/
theorem byteLength_cons_eq_succ (c : Char) (text : List Char) :
    ∃ n, byteLength (c :: text) = n + 1 ∧ n + 1 - c.utf8Size = byteLength text := by
  have := c.utf8Size_pos
  exact ⟨c.utf8Size - 1 + byteLength text, by rw [byteLength_cons]; omega, by omega⟩

theorem dropBytes_zero (text : List Char) : dropBytes 0 text = text := by
  cases text <;> rfl

theorem dropBytes_append (front back : List Char) :
    dropBytes (byteLength front) (front ++ back) = back := by
  induction front with
  | nil => exact dropBytes_zero back
  | cons c front ih =>
    rcases byteLength_cons_eq_succ c front with ⟨n, hn, hrest⟩
    rw [hn, List.cons_append, dropBytes, hrest, ih]

theorem takeBytes_append (front back : List Char) :
    takeBytes (byteLength front) (front ++ back) = front := by
  induction front with
  | nil => cases back <;> rfl
  | cons c front ih =>
    rcases byteLength_cons_eq_succ c front with ⟨n, hn, hrest⟩
    rw [hn, List.cons_append, takeBytes, hrest, ih]

theorem splitBytes?_append (front back : List Char) :
    splitBytes? (byteLength front) (front ++ back) = some (front, back) := by
  induction front with
  | nil => cases back <;> rfl
  | cons c front ih =>
    obtain ⟨n, hn, hrest⟩ := byteLength_cons_eq_succ c front
    have hfits : ¬ n + 1 < c.utf8Size := by
      rw [← hn, byteLength_cons]
      omega
    rw [hn, List.cons_append, splitBytes?, if_neg hfits, hrest, ih]
    rfl

theorem splitBytes?_eq_some {n : Nat} {text front back : List Char} :
    splitBytes? n text = some (front, back) ↔ text = front ++ back ∧ n = byteLength front := by
  constructor
  · intro h
    fun_induction splitBytes? n text generalizing front with
    | case1 text =>
      cases h
      exact ⟨rfl, rfl⟩
    | case2 n => cases h
    | case3 n c rest hlt => cases h
    | case4 n c rest hfits ih =>
      obtain ⟨⟨front', back'⟩, hsplit, heq⟩ := Option.map_eq_some_iff.1 h
      cases heq
      obtain ⟨rfl, hn⟩ := ih hsplit
      exact ⟨rfl, by rw [byteLength_cons]; omega⟩
  · rintro ⟨rfl, rfl⟩
    exact splitBytes?_append front back

/-- The bytes between the ends of two prefixes are what the longer one has more. -/
theorem substring?_append (front middle back : List Char) :
    Span.substring? ⟨byteLength front, byteLength (front ++ middle)⟩ (front ++ (middle ++ back))
      = some middle := by
  have hlength : (⟨byteLength front, byteLength (front ++ middle)⟩ : Span).length?
      = some (byteLength middle) := by
    simp [Span.length?]
  rw [Span.substring?, hlength]
  simp only [Option.bind_eq_bind, Option.bind_some, splitBytes?_append]
  rfl

/-- What can be cut out of a text stands between the ends of two of its prefixes. -/
theorem substring?_eq_some {s : Span} {text middle : List Char} :
    s.substring? text = some middle ↔
      ∃ front back, text = front ++ (middle ++ back) ∧
        s = ⟨byteLength front, byteLength (front ++ middle)⟩ := by
  constructor
  · intro h
    obtain ⟨length, hlength, h⟩ := Option.bind_eq_some_iff.1 h
    obtain ⟨⟨front, rest⟩, hfront, h⟩ := Option.bind_eq_some_iff.1 h
    obtain ⟨⟨middle', back⟩, hmiddle, h⟩ := Option.bind_eq_some_iff.1 h
    cases h
    obtain ⟨rfl, hstart⟩ := splitBytes?_eq_some.1 hfront
    obtain ⟨rfl, hstop⟩ := splitBytes?_eq_some.1 hmiddle
    refine ⟨front, back, rfl, ?_⟩
    rcases s with ⟨start, stop⟩
    simp only [Span.length?, Option.ite_none_right_eq_some, Option.some.injEq] at hlength hstart
    have hreach : stop = byteLength (front ++ middle) := by
      rw [byteLength_append, ← hstart, ← hstop]
      omega
    rw [hstart, hreach]
  · rintro ⟨front, back, rfl, rfl⟩
    exact substring?_append front middle back

theorem posFrom_append (p : Pos) (front back : List Char) :
    posFrom p (front ++ back) (byteLength front) = p.after front := by
  induction front generalizing p with
  | nil => cases back <;> rfl
  | cons c front ih =>
    rcases byteLength_cons_eq_succ c front with ⟨n, hn, hrest⟩
    rw [hn, List.cons_append, posFrom, hrest, ih, Pos.after_cons]

/-- The position at the end of a prefix. -/
theorem posOf_append (front back : List Char) :
    posOf (front ++ back) (byteLength front) = Pos.zero.after front :=
  posFrom_append Pos.zero front back

theorem offsetOf_zero (text : List Char) : offsetOf text Pos.zero = 0 := by
  cases text <;> rfl

/-- The offset at the end of a prefix. -/
theorem offsetOf_append (front back : List Char) :
    offsetOf (front ++ back) (Pos.zero.after front) = byteLength front := by
  induction front with
  | nil => exact offsetOf_zero back
  | cons c front ih =>
    by_cases hc : c = '\n'
    · subst hc
      rw [after_newline, List.cons_append, offsetOf, if_pos rfl, ih, byteLength_cons]
    · rw [after_char hc, List.cons_append]
      split
      · rename_i hzero
        rw [offsetOf, if_neg hc, byteLength_cons, ← ih, ← hzero]
      · rename_i hzero
        rcases Nat.exists_eq_succ_of_ne_zero hzero with ⟨l, hl⟩
        have hp : Pos.zero.after front = ⟨l + 1, (Pos.zero.after front).column⟩ := by
          ext
          · exact hl
          · rfl
        rw [hp, offsetOf, if_neg hc, ← hp, ih, byteLength_cons]

theorem boundary_byteLength (front back : List Char) :
    Boundary (front ++ back) (byteLength front) := ⟨front, List.prefix_append front back, rfl⟩

theorem boundary_iff {text : List Char} {o : Nat} :
    Boundary text o ↔ ∃ front back, text = front ++ back ∧ o = byteLength front := by
  constructor
  · rintro ⟨front, ⟨back, rfl⟩, rfl⟩
    exact ⟨front, back, rfl, rfl⟩
  · rintro ⟨front, back, rfl, rfl⟩
    exact boundary_byteLength front back

/-! ## Comparing prefixes -/

variable {front front' back back' : List Char}

/-- Of two prefixes of one text, the one that ends later extends the other. -/
theorem prefix_of_after_le (p : Pos) (h : front ++ back = front' ++ back')
    (hle : p.after front ≤ p.after front') :
    ∃ middle, front' = front ++ middle ∧ back = middle ++ back' := by
  rcases List.append_eq_append_iff.1 h with ⟨middle, hfront, hback⟩ | ⟨middle, hfront, hback⟩
  · exact ⟨middle, hfront, hback⟩
  · subst hfront
    rw [Pos.after_append] at hle
    cases middle with
    | nil => exact ⟨[], by simp, by simpa using hback.symm⟩
    | cons c rest =>
      have hlt := Pos.lt_after (p.after front') (List.cons_ne_nil c rest)
      exact absurd (Pos.lt_of_lt_of_le hlt hle) (Pos.lt_irrefl _)

/-- The same by the number of bytes. -/
theorem prefix_of_byteLength_le (h : front ++ back = front' ++ back')
    (hle : byteLength front ≤ byteLength front') :
    ∃ middle, front' = front ++ middle ∧ back = middle ++ back' := by
  rcases List.append_eq_append_iff.1 h with ⟨middle, hfront, hback⟩ | ⟨middle, hfront, hback⟩
  · exact ⟨middle, hfront, hback⟩
  · subst hfront
    rw [byteLength_append] at hle
    have hnil : middle = [] := byteLength_eq_zero.1 (by omega)
    subst hnil
    exact ⟨[], by simp, by simpa using hback.symm⟩

/-- The prefix that takes up more bytes has more characters. -/
theorem prefix_of_byteLength_lt (h : front ++ back = front' ++ back')
    (hlt : byteLength front < byteLength front') :
    ∃ middle, middle ≠ [] ∧ front' = front ++ middle ∧ back = middle ++ back' := by
  obtain ⟨middle, rfl, hback⟩ := prefix_of_byteLength_le h (Nat.le_of_lt hlt)
  refine ⟨middle, ?_, rfl, hback⟩
  rintro rfl
  simp at hlt

/-- Two prefixes of one text that take up as many bytes are the same. -/
theorem eq_of_byteLength_eq (h : front ++ back = front' ++ back')
    (hlength : byteLength front = byteLength front') : front = front' ∧ back = back' := by
  obtain ⟨middle, rfl, rfl⟩ := prefix_of_byteLength_le h (Nat.le_of_eq hlength)
  rw [byteLength_append] at hlength
  have hnil : middle = [] := byteLength_eq_zero.1 (by omega)
  rw [hnil, List.append_nil]
  exact ⟨rfl, rfl⟩

end Text

end Retrace
