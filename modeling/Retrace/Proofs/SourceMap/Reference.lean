import Retrace.Proofs.Base64
import Retrace.Proofs.SourceMap.Document
import Retrace.Proofs.Text.Blank
import Retrace.SourceMap.Reference

/-!
# Reference — what is written at the end of a file is found there

* `LastLine.IsIn` — what it is to be the last line of a text with something on it;
* `LastLine.ofText?_eq_some` — there is one at most, and that is the line that is looked at;
* `Reference.setChars_some`, `Reference.isIn_setChars` — a reference is set between what was in front
  of the last one and what was behind it, or at the end;
* `Reference.find?_set` — a reference that has been set is found;
* `Reference.inlineMap?_inline` — an inline reference holds the map that it was made from;
* `Reference.set_inline` — so the map embedded in a file comes back.
-/

namespace Retrace

/-! ## The last line that is not blank -/

/-- A line of the text with a character that is not blank, and nothing but blank ones follow. -/
structure LastLine.IsIn (l : LastLine) (text : List Char) : Prop where
  text_eq : text = l.before ++ l.line ++ l.after
  before : ∀ c ∈ l.before.getLast?, c = '\n'
  line : '\n' ∉ l.line
  filled : ∃ c ∈ l.line, Blank.isFill c = false
  after : ∀ c ∈ l.after.head?, c = '\n'
  blank : ∀ c ∈ l.after, Blank.isFill c = true

namespace LastLine

open Blank

variable {text : List Char} {l : LastLine}

theorem eq_newline_iff {c : Char} : decide (c ≠ '\n') = false ↔ c = '\n' := by
  rw [decide_eq_false_iff_not, not_not]

theorem not_mem_newline_iff {line : List Char} :
    (∀ c ∈ line, decide (c ≠ '\n') = true) ↔ '\n' ∉ line := by
  simp only [decide_eq_true_iff]
  exact ⟨fun h hmem => h '\n' hmem rfl, fun h c hc hnewline => h (hnewline ▸ hc)⟩

/-- The text is cut behind its last character that is not blank, and then both pieces where the line
of that character ends. -/
theorem ofText?_eq_some_iff_cuts :
    ofText? text = some l ↔
      ∃ body fill front back, body ≠ [] ∧
        (dropEndWhile isFill text = body ∧ takeEndWhile isFill text = fill) ∧
        (dropEndWhile (· ≠ '\n') body = l.before ∧ takeEndWhile (· ≠ '\n') body = front) ∧
        (fill.takeWhile (· ≠ '\n') = back ∧ fill.dropWhile (· ≠ '\n') = l.after) ∧
        l.line = front ++ back := by
  rw [ofText?]
  constructor
  · intro h
    split at h
    · cases h
    · rename_i hbody
      cases h
      exact ⟨_, _, _, _, hbody, ⟨rfl, rfl⟩, ⟨rfl, rfl⟩, ⟨rfl, rfl⟩, rfl⟩
  · rcases l with ⟨before, line, after⟩
    rintro ⟨_, _, _, _, hbody, ⟨rfl, rfl⟩, ⟨rfl, rfl⟩, ⟨rfl, rfl⟩, rfl⟩
    exact if_neg hbody

/-- A text has one such line at most, and that is the line that is looked at. -/
theorem ofText?_eq_some : ofText? text = some l ↔ l.IsIn text := by
  simp only [ofText?_eq_some_iff_cuts, endWhile_iff, startWhile_iff, eq_newline_iff,
    not_mem_newline_iff]
  constructor
  · rintro ⟨body, fill, front, back, hne, ⟨htext, hlast, hfill⟩, ⟨hbody, hbefore, hfront⟩,
      ⟨hrest, hback, hafter⟩, hline⟩
    refine ⟨?_, hbefore, ?_, ?_, hafter, ?_⟩
    · rw [htext, hbody, hrest, hline]
      simp only [List.append_assoc]
    · rw [hline, List.mem_append, not_or]
      exact ⟨hfront, hback⟩
    · -- the last character that is not blank is no line feed, so it is on the line
      cases hc : front.getLast? with
      | none =>
        rw [List.getLast?_eq_none_iff.1 hc, List.append_nil] at hbody
        rcases Option.isSome_iff_exists.1 (List.getLast?_isSome.2 hne) with ⟨c, hc⟩
        rw [hbefore c (hbody ▸ hc)] at hc
        cases hlast '\n' hc
      | some c =>
        refine ⟨c, ?_, hlast c ?_⟩
        · rw [hline]
          exact List.mem_append_left back (List.mem_of_getLast? hc)
        · rw [hbody, List.getLast?_append, hc]
          rfl
    · intro c hc
      exact hfill c (hrest ▸ List.mem_append_right back hc)
  · rintro ⟨htext, hbefore, hnewline, ⟨c, hc, hfilled⟩, hafter, hblank⟩
    rcases endWhile_iff.1 ⟨rfl, rfl⟩ with ⟨hline, hlast, hfill⟩
    generalize dropEndWhile isFill l.line = front at hline hlast
    generalize takeEndWhile isFill l.line = back at hline hfill
    have hfront : front ≠ [] := by
      rintro rfl
      rw [hline] at hc
      exact Bool.false_ne_true (hfilled.symm.trans (hfill c hc))
    rw [hline, List.mem_append, not_or] at hnewline
    refine ⟨l.before ++ front, back ++ l.after, front, back, ?_, ⟨?_, ?_, ?_⟩,
      ⟨rfl, hbefore, hnewline.1⟩, ⟨rfl, hnewline.2, hafter⟩, hline⟩
    · exact fun h => hfront (List.append_eq_nil_iff.1 h).2
    · rw [htext, hline]
      simp only [List.append_assoc]
    · rw [List.getLast?_append_of_ne_nil _ hfront]
      exact hlast
    · intro c hc
      exact (List.mem_append.1 hc).elim (hfill c) (hblank c)

end LastLine

namespace Reference

/-! ## Setting and finding -/

/-- A reference that a line can hold: nothing of it is lost with the white space around it. -/
structure Plain (r : Reference) : Prop where
  newline : '\n' ∉ r.url.toList
  trim : Blank.trim r.url.toList = r.url.toList

variable {text : List Char} {l : LastLine} {r : Reference}

theorem after?_append (start text : List Char) : after? start (start ++ text) = some text := by
  induction start with
  | nil => rfl
  | cons c start ih =>
    rw [List.cons_append, after?, if_pos rfl]
    exact ih

theorem ofLine?_comment (h : r.Plain) : ofLine? r.comment = some r := by
  rw [ofLine?, comment, after?_append, Option.map_some, h.trim, String.ofList_toList]

theorem newline_notMem_comment (h : r.Plain) : '\n' ∉ r.comment := by
  rw [comment, List.mem_append, not_or]
  exact ⟨by decide, h.newline⟩

/-- A comment is no blank line, whatever it refers to. -/
theorem exists_filled_comment (r : Reference) : ∃ c ∈ r.comment, Blank.isFill c = false :=
  ⟨'/', List.mem_append_left _ List.mem_cons_self, rfl⟩

theorem findLine?_eq_some :
    findLine? text = some (r, l) ↔ l.IsIn text ∧ ofLine? l.line = some r := by
  rw [findLine?, ← LastLine.ofText?_eq_some]
  constructor
  · intro h
    rcases Option.bind_eq_some_iff.1 h with ⟨l', hl, h'⟩
    rcases Option.bind_eq_some_iff.1 h' with ⟨r', hr, heq⟩
    cases heq
    exact ⟨hl, hr⟩
  · rintro ⟨hl, hr⟩
    rw [hl, Option.bind_eq_bind, Option.bind_some, hr]
    rfl

theorem find?_eq_none {text : String} : find? text = none ↔ findLine? text.toList = none := by
  rw [find?, Option.map_eq_none_iff]

/-- What stands in front of the reference of a text and behind it.  In a text without a reference
there would be a line for it at the end. -/
def surroundings (text : List Char) : List Char × List Char :=
  match findLine? text with
  | some (_, l) => (l.before, l.after)
  | none => (text ++ (if text = [] ∨ text.getLast? = some '\n' then [] else ['\n']), ['\n'])

theorem surroundings_of_some (h : findLine? text = some (r, l)) :
    surroundings text = (l.before, l.after) := by
  rw [surroundings, h]

theorem surroundings_of_none (h : findLine? text = none) :
    surroundings text
      = (text ++ (if text = [] ∨ text.getLast? = some '\n' then [] else ['\n']), ['\n']) := by
  rw [surroundings, h]

theorem setChars_some (text : List Char) (r : Reference) :
    setChars text (some r) = (surroundings text).1 ++ r.comment ++ (surroundings text).2 := by
  cases hfind : findLine? text with
  | some found =>
    rcases found with ⟨r', l⟩
    simp only [setChars, surroundings, hfind, Option.map_some, Option.getD_some]
  | none => simp only [setChars, surroundings, hfind, Option.map_some, Option.getD_some]

/-- A text that ends in a line feed if it is not empty. -/
theorem getLast?_closed (text : List Char) :
    ∀ c ∈ (text ++ (if text = [] ∨ text.getLast? = some '\n' then [] else ['\n'])).getLast?,
      c = '\n' := by
  intro c hc
  split at hc
  · rename_i hend
    rw [List.append_nil] at hc
    rcases hend with rfl | hend
    · cases hc
    · exact (Option.some.inj (hend.symm.trans hc)).symm
  · rw [List.getLast?_concat] at hc
    exact (Option.some.inj hc).symm

/-- The line of a reference that has been set is the last one that is not blank. -/
theorem isIn_setChars (h : r.Plain) (text : List Char) :
    LastLine.IsIn ⟨(surroundings text).1, r.comment, (surroundings text).2⟩
      (setChars text (some r)) := by
  cases hfind : findLine? text with
  | some found =>
    rcases found with ⟨r', l⟩
    have hin := (findLine?_eq_some.1 hfind).1
    rw [setChars_some, surroundings_of_some hfind]
    exact ⟨rfl, hin.before, newline_notMem_comment h, exists_filled_comment r, hin.after, hin.blank⟩
  | none =>
    -- the new line comes behind a line feed, or at the very start
    rw [setChars_some, surroundings_of_none hfind]
    refine ⟨rfl, getLast?_closed text, newline_notMem_comment h, exists_filled_comment r, ?_, ?_⟩
    · intro c hc
      exact (Option.some.inj hc).symm
    · intro c hc
      rw [List.mem_singleton.1 hc]
      rfl

/-- A reference that has been set is found, on a line of its own. -/
theorem findLine?_setChars (h : r.Plain) (text : List Char) :
    findLine? (setChars text (some r))
      = some (r, ⟨(surroundings text).1, r.comment, (surroundings text).2⟩) :=
  findLine?_eq_some.2 ⟨isIn_setChars h text, ofLine?_comment h⟩

theorem find?_set (h : r.Plain) (text : String) : find? (set text (some r)) = some r := by
  rw [find?, set, String.toList_ofList, findLine?_setChars h]
  rfl

/-! ## Inline maps -/

variable {m : SourceMap}

theorem url_inline (m : SourceMap) :
    (inline m).url.toList = inlineMarker ++ Base64.encode (Utf8.ofString m.toText) := by
  rw [inline, String.toList_ofList]

theorem isSpace_of_mem_url_inline {c : Char} (h : c ∈ (inline m).url.toList) :
    Blank.isSpace c = false := by
  rw [url_inline] at h
  rcases List.mem_append.1 h with hmarker | hdigit
  · have hall : (inlineMarker.all fun c => !Blank.isSpace c) = true := by decide +kernel
    simpa using List.all_eq_true.1 hall c hmarker
  · exact Base64.isSpace_of_mem_encode hdigit

theorem plain_inline (m : SourceMap) : (inline m).Plain := by
  refine ⟨fun h => ?_, Blank.trim_eq_self fun c hc => isSpace_of_mem_url_inline hc⟩
  cases isSpace_of_mem_url_inline h

/-- An inline reference holds the map that it was made from, and only the version can be wrong with
it. -/
theorem inlineMap?_inline (h : m.Fits) :
    (inline m).inlineMap? =
      if m.version = 3 then .ok (some m) else .error (.unsupportedVersion m.version) := by
  have htrim : Blank.trim (Base64.encode (Utf8.ofString m.toText))
      = Base64.encode (Utf8.ofString m.toText) :=
    Blank.trim_eq_self fun c hc => Base64.isSpace_of_mem_encode hc
  have htext : Utf8.decode? (Utf8.ofString m.toText) = some m.toText.toList :=
    Utf8.decode?_encode _
  have hmap : SourceMap.ofBytes (Utf8.ofString m.toText)
      = if m.version = 3 then .ok m else .error (.unsupportedVersion m.version) :=
    SourceMap.ofText_toText h
  rw [inlineMap?, url_inline, after?_append]
  simp only [htrim, Base64.decode?_encode, htext, Option.isNone_some, Bool.false_eq_true, if_false,
    hmap]
  split <;> rfl

/-- Whatever a file ends in, a map that is embedded in it is found there, and comes back with all its
fields if it is of version 3.  Of any other, the version is reported. -/
theorem set_inline (text : String) (m : SourceMap) (h : m.Fits) :
    find? (set text (some (inline m))) = some (inline m) ∧
      (inline m).inlineMap? =
        if m.version = 3 then .ok (some m) else .error (.unsupportedVersion m.version) := by
  exact ⟨find?_set (plain_inline m) text, inlineMap?_inline h⟩

/-- A map with the content of one of its two sources, without a root. -/
def halfContents : SourceMap :=
  ⟨3, some "ü.js", none, ["a.ts", "b.ts"], some [none, some "x\n\"y\""], [], "AAAA;;CCCC"⟩

/-- The file has a reference already, and blank lines after it. -/
theorem set_inline_halfContents :
    halfContents.Fits ∧
      find? (set "f()\n//# sourceMappingURL=old.map \t\n \r\n\n" (some (inline halfContents)))
        = some (inline halfContents) ∧
      (inline halfContents).inlineMap? = .ok (some halfContents) ∧
      (inline { halfContents with version := 4 }).inlineMap? = .error (.unsupportedVersion 4) := by
  have hfits : halfContents.Fits := by decide
  have hfits' : { halfContents with version := 4 }.Fits := by decide
  rcases set_inline "f()\n//# sourceMappingURL=old.map \t\n \r\n\n" halfContents hfits with
    ⟨hfind, hmap⟩
  rcases set_inline "" { halfContents with version := 4 } hfits' with ⟨-, hmap'⟩
  exact ⟨hfits, hfind, hmap, hmap'⟩

end Reference

end Retrace
