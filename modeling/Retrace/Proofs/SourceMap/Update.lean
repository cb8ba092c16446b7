import Retrace.Proofs.SourceMap.Reference
import Retrace.Proofs.Text.Offsets

/-!
# Update — setting and removing the reference of a file

Setting a reference is an update of one line: what has been set is found, what is set later takes its
place, and nothing else in the file changes.  Removing blanks the same line.  It does not look any
further, so a file with another reference right in front of that line still has one afterwards.

* `Utf8.take_encode`, `Utf8.drop_encode` — the bytes of a text are cut where the text is;
* `Reference.setChars_setChars` — the reference that is set last is the one that counts;
* `Reference.set_lawful` — setting a reference;
* `LastLine.ofText?_append_blank` — blank lines at the end of a text do not matter;
* `Reference.set_none` — removing a reference;
* `Reference.stacked_still_found` — a file that has a reference after that.
-/

namespace Retrace

/-! ## The bytes of a text -/

namespace Utf8

theorem length_encode (text : List Char) : (encode text).length = Text.byteLength text := by
  induction text with
  | nil => rfl
  | cons c rest ih =>
    rw [encode, List.flatMap_cons, List.length_append, String.length_utf8EncodeChar,
      Text.byteLength_cons, ← ih, encode]

theorem take_encode (front back : List Char) :
    (encode (front ++ back)).take (Text.byteLength front) = encode front := by
  rw [encode_append, ← length_encode, List.take_left]

theorem drop_encode (front back : List Char) :
    (encode (front ++ back)).drop (Text.byteLength front) = encode back := by
  rw [encode_append, ← length_encode, List.drop_left]

end Utf8

namespace Reference

variable {text : List Char} {l : LastLine} {r u v : Reference}

/-! ## Setting -/

/-- The reference that is set last is the one that counts. -/
theorem setChars_setChars (h : u.Plain) (text : List Char) (v : Reference) :
    setChars (setChars text (some u)) (some v) = setChars text (some v) := by
  have hsame : surroundings (setChars text (some u)) = surroundings text :=
    surroundings_of_some (findLine?_setChars h text)
  rw [setChars_some, hsame, ← setChars_some]

/-- Of the bytes of a file, setting a reference replaces those of the line that holds the old one. -/
theorem bytes_setChars (h : findLine? text = some (r, l)) (u : Reference) :
    Utf8.encode (setChars text (some u)) = (Utf8.encode text).take l.span.start
      ++ Utf8.encode u.comment ++ (Utf8.encode text).drop l.span.stop := by
  have htext := (findLine?_eq_some.1 h).1.text_eq
  have hstart : (Utf8.encode text).take l.span.start = Utf8.encode l.before := by
    rw [htext, List.append_assoc]
    exact Utf8.take_encode l.before (l.line ++ l.after)
  have hstop : (Utf8.encode text).drop l.span.stop = Utf8.encode l.after := by
    have hspan : l.span.stop = Text.byteLength (l.before ++ l.line) :=
      (Text.byteLength_append l.before l.line).symm
    rw [hspan, htext, Utf8.drop_encode]
  rw [setChars_some, surroundings_of_some h, Utf8.encode_append, Utf8.encode_append, hstart, hstop]

/-- A reference that has been set is found, and the one that is set last is the one that counts.  In a
file with a reference the bytes of its line are replaced, which is the last one that is not blank, and
no others.  Any other file stays as it is and gets a line at its end. -/
theorem set_lawful (h : u.Plain) (text : String) (v : Reference) :
    find? (set text (some u)) = some u ∧
      set (set text (some u)) (some v) = set text (some v) ∧
      (∀ s, span? text = some s →
        (∃ l : LastLine, l.IsIn text.toList ∧ l.span = s) ∧
          Utf8.ofString (set text (some u)) = (Utf8.ofString text).take s.start
            ++ Utf8.encode u.comment ++ (Utf8.ofString text).drop s.stop) ∧
      (find? text = none →
        (set text (some u)).toList = text.toList
          ++ (if text.toList = [] ∨ text.toList.getLast? = some '\n' then [] else ['\n'])
          ++ u.comment ++ ['\n']) := by
  refine ⟨find?_set h text, ?_, ?_, ?_⟩
  · rw [set, set, String.toList_ofList, setChars_setChars h, ← set]
  · intro s hs
    obtain ⟨⟨r, l⟩, hfind, rfl⟩ := Option.map_eq_some_iff.1 hs
    refine ⟨⟨l, (findLine?_eq_some.1 hfind).1, rfl⟩, ?_⟩
    rw [Utf8.ofString, set, String.toList_ofList]
    exact bytes_setChars hfind u
  · intro hnone
    rw [set, String.toList_ofList, setChars_some, surroundings_of_none (find?_eq_none.1 hnone)]

/-- The file ends in a blank line, and one reference stands right in front of the other. -/
theorem set_lawful_stacked :
    Plain ⟨"é.map"⟩ ∧
      find? (set "//# sourceMappingURL=a\n//# sourceMappingURL= b\r\n\t\n" (some ⟨"é.map"⟩))
        = some ⟨"é.map"⟩ ∧
      span? "//# sourceMappingURL=a\n//# sourceMappingURL= b\r\n\t\n" = some ⟨23, 47⟩ ∧
      set (set "f()" (some ⟨"é.map"⟩)) (some ⟨" x "⟩) = set "f()" (some ⟨" x "⟩) ∧
      set "f()" (some ⟨"é.map"⟩) = "f()\n//# sourceMappingURL=é.map\n" := by
  have hplain : Plain ⟨"é.map"⟩ := ⟨by decide, by decide⟩
  obtain ⟨hfind, -, -, -⟩ :=
    set_lawful hplain "//# sourceMappingURL=a\n//# sourceMappingURL= b\r\n\t\n" ⟨" x "⟩
  obtain ⟨-, hlast, -, hend⟩ := set_lawful hplain "f()" ⟨" x "⟩
  refine ⟨hplain, hfind, by decide, hlast, ?_⟩
  rw [← String.toList_inj, hend (by decide)]
  decide

end Reference

/-! ## Removing -/

namespace LastLine

open Blank

variable {before after text : List Char} {l : LastLine}

theorem ofText?_eq_none : ofText? text = none ↔ ∀ c ∈ text, isFill c = true := by
  have hcut : dropEndWhile isFill text = [] ↔ ∀ c ∈ text, isFill c = true := by
    obtain ⟨htext, hlast, hfill⟩ := endWhile_iff.1 ⟨rfl, rfl⟩
    constructor
    · intro hnil c hc
      rw [hnil, List.nil_append] at htext
      exact hfill c (htext ▸ hc)
    · intro hall
      exact (endWhile_iff.2 ⟨(List.nil_append text).symm, fun c hc => (by cases hc), hall⟩).1
  rw [ofText?, ← hcut]
  split
  · rename_i hbody
    exact ⟨fun _ => hbody, fun _ => rfl⟩
  · rename_i hbody
    exact ⟨fun h => (by cases h), fun h => absurd h hbody⟩

/-- Blank lines at the end of a text do not change which line is the last one that is not blank. -/
theorem ofText?_append_blank (hafter : ∀ c ∈ after.head?, c = '\n')
    (hblank : ∀ c ∈ after, isFill c = true) :
    ofText? (before ++ after)
      = (ofText? before).map fun l => ⟨l.before, l.line, l.after ++ after⟩ := by
  cases hbefore : ofText? before with
  | none =>
    refine ofText?_eq_none.2 fun c hc => ?_
    exact (List.mem_append.1 hc).elim (ofText?_eq_none.1 hbefore c) (hblank c)
  | some l =>
    have hin := ofText?_eq_some.1 hbefore
    refine ofText?_eq_some.2 ⟨?_, hin.before, hin.line, hin.filled, ?_, ?_⟩
    · rw [hin.text_eq, List.append_assoc]
    · intro c hc
      have hhead : (l.after ++ after).head? = some c := hc
      rw [List.head?_append, Option.or_eq_some_iff] at hhead
      rcases hhead with hhead | ⟨-, hhead⟩
      · exact hin.after c hhead
      · exact hafter c hhead
    · intro c hc
      exact (List.mem_append.1 hc).elim (hin.blank c) (hblank c)

end LastLine

namespace Reference

variable {text : List Char} {l : LastLine} {r : Reference}

theorem setChars_none (h : findLine? text = some (r, l)) :
    setChars text none = l.before ++ l.after := by
  simp only [setChars, h, Option.map_none, Option.getD_none, List.append_nil]

theorem setChars_none_of_none (h : findLine? text = none) : setChars text none = text := by
  simp only [setChars, h]

/-- What is found after a removal is what the text in front of the line ends with. -/
theorem findLine?_setChars_none (h : findLine? text = some (r, l)) :
    (findLine? (setChars text none)).map Prod.fst = (findLine? l.before).map Prod.fst := by
  have hin := (findLine?_eq_some.1 h).1
  rw [setChars_none h, findLine?, LastLine.ofText?_append_blank hin.after hin.blank, findLine?]
  cases LastLine.ofText? l.before with
  | none => rfl
  | some l' =>
    simp only [Option.map_some, Option.bind_eq_bind, Option.bind_some]
    cases ofLine? l'.line <;> rfl

/-- Removing takes something away wherever there is a reference. -/
theorem setChars_none_ne (h : findLine? text = some (r, l)) : setChars text none ≠ text := by
  have hin := (findLine?_eq_some.1 h).1
  obtain ⟨c, hc, -⟩ := hin.filled
  intro heq
  rw [setChars_none h] at heq
  have hlength := congrArg List.length (heq.trans hin.text_eq)
  have hpos := List.length_pos_of_mem hc
  simp only [List.length_append] at hlength
  omega

/-- A file without a reference stays as it is.  In any other one the line of the reference is emptied,
and what is found then is the reference at the end of what stands in front of that line, if there is
one.  A second removal changes nothing exactly if none is found after the first. -/
theorem set_none (text : String) :
    (find? text = none → set text none = text) ∧
      (∀ r l, findLine? text.toList = some (r, l) →
        (set text none).toList = l.before ++ l.after ∧
          find? (set text none) = find? (String.ofList l.before)) ∧
      (set (set text none) none = set text none ↔ find? (set text none) = none) := by
  have hkeep : ∀ s, find? s = none → set s none = s := by
    intro s hs
    rw [set, setChars_none_of_none (find?_eq_none.1 hs), String.ofList_toList]
  refine ⟨hkeep text, ?_, ?_, hkeep _⟩
  · intro r l h
    rw [set, String.toList_ofList, find?, find?, String.toList_ofList, String.toList_ofList]
    exact ⟨setChars_none h, findLine?_setChars_none h⟩
  · intro hsame
    refine find?_eq_none.2 ?_
    cases hfind : findLine? (set text none).toList with
    | none => rfl
    | some found =>
      rcases found with ⟨r, l⟩
      have hchars := congrArg String.toList hsame
      rw [set, String.toList_ofList] at hchars
      exact absurd hchars (setChars_none_ne hfind)

theorem set_none_blankEnd :
    set "f()\n//# sourceMappingURL=b\n \r\n" none = "f()\n\n \r\n" ∧
      find? (set "f()\n//# sourceMappingURL=b\n \r\n" none) = none ∧
      set (set "f()\n//# sourceMappingURL=b\n \r\n" none) none
        = set "f()\n//# sourceMappingURL=b\n \r\n" none := by
  obtain ⟨-, hremoved, hagain⟩ := set_none "f()\n//# sourceMappingURL=b\n \r\n"
  obtain ⟨hchars, hfind⟩ := hremoved ⟨"b"⟩
    ⟨"f()\n".toList, "//# sourceMappingURL=b".toList, "\n \r\n".toList⟩ (by decide)
  have hnone : find? (set "f()\n//# sourceMappingURL=b\n \r\n" none) = none := by
    rw [hfind]
    decide
  refine ⟨?_, hnone, hagain.2 hnone⟩
  rw [← String.toList_inj, hchars]
  decide

/-- Two references one after the other: the first is found when the second has been removed, and
goes with the next removal. -/
theorem stacked_still_found :
    find? (set "//# sourceMappingURL=a\n//# sourceMappingURL=b\n" none) = some ⟨"a"⟩ ∧
      set (set "//# sourceMappingURL=a\n//# sourceMappingURL=b\n" none) none
        ≠ set "//# sourceMappingURL=a\n//# sourceMappingURL=b\n" none := by
  decide

end Reference

end Retrace
