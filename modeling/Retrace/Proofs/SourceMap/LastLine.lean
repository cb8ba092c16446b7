import Retrace.Proofs.SourceMap.Update
import Retrace.Proofs.Text.LineTable

/-!
# LastLine — the last line that is not blank, found from the end

One pass from the end of a text has to keep two things: where the line that is being read stops, and
whether it has shown a character that is not blank.  What has been passed is a blank end of that line
and blank lines behind it, until such a character shows; from there on nothing matters but the next
line feed.

* `Text.lineStart_iff`, `Text.lineStop_iff` — at which bytes lines start and stop;
* `LastLine.StandsAt` — what it is for bytes to be those of the last line that is not blank;
* `LastLine.scanBack_filled`, `LastLine.scanBack_blank` — the pass with and without content seen;
* `LastLine.scan?_standsAt` — it finds the only such bytes, or the text is blank;
* `Reference.locate?_eq` — so the reference found with its bytes is the one that is read and set.
-/

namespace Retrace

/-! ## Where lines start and stop -/

namespace Text

/-- A prefix that is empty or that a line feed ends leads to the start of a line. -/
theorem lineStart_iff (front back : List Char) :
    (byteLength front = 0 ∨
        ∃ i, (i, '\n') ∈ charOffsets 0 (front ++ back) ∧ byteLength front = i + 1) ↔
      ∀ c ∈ front.getLast?, c = '\n' := by
  constructor
  · rintro (hzero | ⟨i, hi, hfront⟩) c hc
    · rw [byteLength_eq_zero.1 hzero] at hc
      cases hc
    · obtain ⟨start, rest, htext, rfl⟩ := mem_charOffsets.1 hi
      have hcut : front ++ back = start ++ ['\n'] ++ rest := by
        rw [htext, List.append_assoc]
        rfl
      have hlength : byteLength front = byteLength (start ++ ['\n']) := by
        rw [hfront, Nat.zero_add, byteLength_append]
        rfl
      rw [(eq_of_byteLength_eq hcut hlength).1, List.getLast?_concat] at hc
      exact (Option.some.inj hc).symm
  · intro h
    rcases List.eq_nil_or_concat front with rfl | ⟨start, c, rfl⟩
    · exact Or.inl rfl
    · rw [List.concat_eq_append] at h ⊢
      obtain rfl : c = '\n' := h c (by rw [List.getLast?_concat]; rfl)
      refine Or.inr ⟨byteLength start, mem_charOffsets.2 ⟨start, back, ?_, ?_⟩, ?_⟩
      · rw [List.append_assoc]
        rfl
      · rw [Nat.zero_add]
      · rw [byteLength_append]
        rfl

/-- A line stops where the text does or where a line feed follows. -/
theorem lineStop_iff (front back : List Char) :
    (byteLength front = byteLength (front ++ back) ∨
        (byteLength front, '\n') ∈ charOffsets 0 (front ++ back)) ↔
      ∀ c ∈ back.head?, c = '\n' := by
  constructor
  · rintro (hend | hbreak) c hc
    · rw [byteLength_append] at hend
      have hnil : back = [] := byteLength_eq_zero.1 (by omega)
      rw [hnil] at hc
      cases hc
    · obtain ⟨start, rest, htext, hlength⟩ := mem_charOffsets.1 hbreak
      rw [Nat.zero_add] at hlength
      rw [(eq_of_byteLength_eq htext hlength).2] at hc
      exact (Option.some.inj hc).symm
  · intro h
    cases back with
    | nil =>
      rw [List.append_nil]
      exact Or.inl rfl
    | cons c rest =>
      obtain rfl : c = '\n' := h c rfl
      exact Or.inr (mem_charOffsets.2 ⟨front, rest, rfl, (Nat.zero_add _).symm⟩)

/-- The characters listed from the end of a prefix on are those that follow it. -/
theorem forall_charOffsets_iff (front back : List Char) (P : Char → Prop) :
    (∀ x ∈ charOffsets 0 (front ++ back), byteLength front ≤ x.1 → P x.2) ↔ ∀ c ∈ back, P c := by
  constructor
  · intro h c hc
    obtain ⟨middle, rest, rfl⟩ := List.append_of_mem hc
    refine h (byteLength (front ++ middle), c) (mem_charOffsets.2 ⟨front ++ middle, rest, ?_, ?_⟩) ?_
    · rw [List.append_assoc]
    · rw [Nat.zero_add]
    · rw [byteLength_append]
      exact Nat.le_add_right _ _
  · rintro h ⟨i, c⟩ hx hle
    obtain ⟨start, rest, htext, rfl⟩ := mem_charOffsets.1 hx
    rw [Nat.zero_add] at hle
    obtain ⟨middle, -, hback⟩ := prefix_of_byteLength_le htext hle
    exact h c (hback ▸ List.mem_append_right middle List.mem_cons_self)

end Text

namespace LastLine

open Text

variable {text : List Char} {l : LastLine} {s : Span}

/-! ## The bytes of the line -/

/-- The bytes of a line with a character that is not blank, behind which there are only blank ones. -/
structure StandsAt (text : List Char) (s : Span) : Prop where
  start : s.start = 0 ∨ ∃ i, (i, '\n') ∈ charOffsets 0 text ∧ s.start = i + 1
  stop : s.stop = byteLength text ∨ (s.stop, '\n') ∈ charOffsets 0 text
  line : ∃ line, s.substring? text = some line ∧ '\n' ∉ line ∧ ∃ c ∈ line, Blank.isFill c = false
  after : ∀ x ∈ charOffsets 0 text, s.stop ≤ x.1 → Blank.isFill x.2 = true

theorem span_eq (l : LastLine) :
    l.span = ⟨byteLength l.before, byteLength (l.before ++ l.line)⟩ := by
  rw [byteLength_append]
  rfl

/-- The line can be cut out of the text. -/
theorem IsIn.substring? (h : l.IsIn text) : l.span.substring? text = some l.line := by
  refine substring?_eq_some.2 ⟨l.before, l.after, ?_, l.span_eq⟩
  rw [h.text_eq, List.append_assoc]

/-- Its bytes are those of the line, and no others are. -/
theorem standsAt_iff : StandsAt text s ↔ ∃ l : LastLine, l.IsIn text ∧ l.span = s := by
  constructor
  · rintro ⟨hstart, hstop, ⟨line, hslice, hnewline, hfilled⟩, hafter⟩
    obtain ⟨before, after, rfl, rfl⟩ := substring?_eq_some.1 hslice
    refine ⟨⟨before, line, after⟩, ?_, span_eq _⟩
    have hbefore := (lineStart_iff before (line ++ after)).1 hstart
    rw [← List.append_assoc] at hstop hafter ⊢
    exact ⟨rfl, hbefore, hnewline, hfilled, (lineStop_iff _ after).1 hstop,
      (forall_charOffsets_iff _ after _).1 hafter⟩
  · rintro ⟨l, hin, rfl⟩
    have hline := hin.substring?
    obtain ⟨rfl, hbefore, hnewline, hfilled, hafter, hblank⟩ := hin
    have hstart := (lineStart_iff l.before (l.line ++ l.after)).2 hbefore
    rw [← List.append_assoc] at hstart
    rw [span_eq] at hline ⊢
    exact ⟨hstart, (lineStop_iff _ l.after).2 hafter, ⟨l.line, hline, hnewline, hfilled⟩,
      (forall_charOffsets_iff _ l.after _).2 hblank⟩

/-- A text has one such line at most. -/
theorem StandsAt.unique {t : Span} (h : StandsAt text s) (h' : StandsAt text t) : t = s := by
  obtain ⟨l, hl, rfl⟩ := standsAt_iff.1 h
  obtain ⟨l', hl', rfl⟩ := standsAt_iff.1 h'
  have hsame : some l' = some l := (ofText?_eq_some.2 hl').symm.trans (ofText?_eq_some.2 hl)
  rw [Option.some.inj hsame]

/-! ## The pass from the end -/

theorem scanBack_concat (stop : Nat) (filled : Bool) (text : List Char) (c : Char) :
    scanBack stop filled (charOffsets 0 (text ++ [c])).reverse
      = scanBack stop filled ((byteLength text, c) :: (charOffsets 0 text).reverse) := by
  rw [charOffsets_append, List.reverse_append, Nat.zero_add]
  rfl

/-- Once the line has shown content, it starts behind the next line feed. -/
theorem scanBack_filled (stop : Nat) (text : List Char) :
    ∃ before front, text = before ++ front ∧ (∀ c ∈ before.getLast?, c = '\n') ∧ '\n' ∉ front ∧
      scanBack stop true (charOffsets 0 text).reverse
        = Span.ofBounds? (byteLength before) stop := by
  induction text using List.reverseRecOn with
  | nil =>
    refine ⟨[], [], rfl, fun c hc => (by cases hc), List.not_mem_nil, ?_⟩
    exact (if_pos (Nat.zero_le stop)).symm
  | append_singleton text c ih =>
    rw [scanBack_concat, scanBack]
    by_cases hc : c = '\n'
    · -- the pass stops here, whatever stands in front
      subst hc
      refine ⟨text ++ ['\n'], [], by rw [List.append_nil], ?_, List.not_mem_nil, ?_⟩
      · intro c hc
        rw [List.getLast?_concat] at hc
        exact (Option.some.inj hc).symm
      · rw [if_pos rfl, byteLength_append]
        rfl
    · obtain ⟨before, front, rfl, hbefore, hfront, hscan⟩ := ih
      refine ⟨before, front ++ [c], List.append_assoc before front [c], hbefore, ?_, ?_⟩
      · rw [List.mem_append, List.mem_singleton, not_or]
        exact ⟨hfront, fun hnewline => hc hnewline.symm⟩
      · rw [if_neg hc, Bool.true_or, hscan]

/-- As long as only blank characters have been passed, `back` on the line that is being read and
`after` behind it, the line that is looked for is the one of the whole text. -/
theorem scanBack_blank (text back after : List Char) (hback : '\n' ∉ back)
    (hafter : ∀ c ∈ after.head?, c = '\n') (hblank : ∀ c ∈ back ++ after, Blank.isFill c = true) :
    scanBack (byteLength (text ++ back)) false (charOffsets 0 text).reverse
      = (ofText? (text ++ (back ++ after))).map span := by
  induction text using List.reverseRecOn generalizing back after with
  | nil =>
    have hnone : ofText? ([] ++ (back ++ after)) = none := ofText?_eq_none.2 hblank
    rw [hnone]
    rfl
  | append_singleton text c ih =>
    rw [scanBack_concat, scanBack, List.append_assoc text [c] back,
      List.append_assoc text [c] (back ++ after)]
    by_cases hc : c = '\n'
    · -- the line was blank, and what has been passed of it goes behind the next one
      subst hc
      have hnext := ih [] ('\n' :: (back ++ after)) List.not_mem_nil
        (fun c hc => (Option.some.inj hc).symm)
        (List.forall_mem_cons.2 ⟨rfl, hblank⟩)
      rw [List.append_nil] at hnext
      rw [if_pos rfl, if_neg Bool.false_ne_true]
      exact hnext
    · rw [if_neg hc, Bool.false_or]
      cases hfill : Blank.isFill c with
      | true =>
        have hback' : '\n' ∉ c :: back := by
          rw [List.mem_cons, not_or]
          exact ⟨fun hnewline => hc hnewline.symm, hback⟩
        have hnext := ih (c :: back) after hback' hafter (List.forall_mem_cons.2 ⟨hfill, hblank⟩)
        exact hnext
      | false =>
        -- `c` is the last character that is not blank, and its line starts where the text is cut
        obtain ⟨before, front, rfl, hbefore, hfront, hscan⟩ :=
          scanBack_filled (byteLength (text ++ ([c] ++ back))) text
        have hin : IsIn ⟨before, front ++ c :: back, after⟩
            (before ++ front ++ ([c] ++ (back ++ after))) := by
          refine ⟨by simp, hbefore, ?_, ⟨c, by simp, hfill⟩, hafter, ?_⟩
          · simp only [List.mem_append, List.mem_cons, not_or]
            exact ⟨hfront, fun hnewline => hc hnewline.symm, hback⟩
          · exact fun d hd => hblank d (List.mem_append_right back hd)
        have hbounds : byteLength before ≤ byteLength (before ++ front ++ ([c] ++ back)) := by
          simp only [byteLength_append]
          omega
        rw [ofText?_eq_some.2 hin, Option.map_some, span_eq]
        refine hscan.trans ((if_pos hbounds).trans ?_)
        simp

/-- The pass from the end finds the line at which the text is cut otherwise. -/
theorem scan?_eq (text : List Char) :
    scan? text = (ofText? text).map fun l => (l.line, l.span) := by
  have hscan := scanBack_blank text [] [] List.not_mem_nil (fun c hc => (by cases hc))
    (fun c hc => absurd hc List.not_mem_nil)
  simp only [List.append_nil] at hscan
  rw [scan?, hscan]
  cases hline : ofText? text with
  | none => rfl
  | some l =>
    have hslice := (ofText?_eq_some.1 hline).substring?
    simp only [Option.map_some, Option.bind_eq_bind, Option.bind_some, hslice]
    rfl

/-- The pass from the end finds nothing exactly in texts of blank characters.  In any other text there
is exactly one stretch of bytes that a line with content takes up and that only blank characters
follow.  This stretch is found, and with it the text that it covers. -/
theorem scan?_standsAt (text : List Char) :
    (scan? text = none ↔ ∀ c ∈ text, Blank.isFill c = true) ∧
      ((∃ c ∈ text, Blank.isFill c = false) →
        ∃ line s, scan? text = some (line, s) ∧ s.substring? text = some line ∧ StandsAt text s ∧
          ∀ t, StandsAt text t → t = s) := by
  constructor
  · rw [scan?_eq, Option.map_eq_none_iff]
    exact ofText?_eq_none
  · rintro ⟨c, hc, hfilled⟩
    cases hline : ofText? text with
    | none =>
      rw [ofText?_eq_none.1 hline c hc] at hfilled
      cases hfilled
    | some l =>
      have hin := ofText?_eq_some.1 hline
      have hstands : StandsAt text l.span := standsAt_iff.2 ⟨l, hin, rfl⟩
      refine ⟨l.line, l.span, ?_, hin.substring?, hstands, fun t ht => hstands.unique ht⟩
      rw [scan?_eq, hline, Option.map_some]

/-- The last line but two, with blanks on it and behind it. -/
def spaced : List Char := "a\n é;\t\n \r\n".toList

theorem scan?_standsAt_spaced :
    (∃ c ∈ spaced, Blank.isFill c = false) ∧ scan? spaced = some (" é;\t".toList, ⟨2, 7⟩) ∧
      StandsAt spaced ⟨2, 7⟩ ∧ (∀ t, StandsAt spaced t → t = ⟨2, 7⟩) ∧
      scan? "\n \t\r\n".toList = none := by
  have hfilled : ∃ c ∈ spaced, Blank.isFill c = false := ⟨'a', List.mem_cons_self, rfl⟩
  have hscan : scan? spaced = some (" é;\t".toList, ⟨2, 7⟩) := by decide
  obtain ⟨line, s, hfound, -, hstands, hunique⟩ := (scan?_standsAt spaced).2 hfilled
  rw [hscan] at hfound
  cases hfound
  exact ⟨hfilled, hscan, hstands, hunique, (scan?_standsAt _).1.2 (List.all_eq_true.1 rfl)⟩

end LastLine

/-- The reference that is found with its bytes is the one of the line that is read and set. -/
theorem Reference.locate?_eq (text : String) :
    locate? text = (findLine? text.toList).map fun (r, l) => (r, l.span) := by
  rw [locate?, LastLine.scan?_eq, findLine?]
  cases LastLine.ofText? text.toList with
  | none => rfl
  | some l =>
    simp only [Option.map_some, Option.bind_eq_bind, Option.bind_some]
    cases ofLine? l.line <;> rfl

end Retrace
