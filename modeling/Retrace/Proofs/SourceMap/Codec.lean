import Retrace.Proofs.Result
import Retrace.Proofs.SourceMap.Vlq
import Retrace.SourceMap.Mappings

/-!
# Codec — mappings read back from their text

* `Origin.Fits`, `Segment.Fits`, `Mappings.Fits` — every number fits into 32 bits;
* `Mappings.pieces_eq_splitOn` — the stretches between separators, without the places they end at;
* `Segment.ofFields_fields` — a segment read back from its differences;
* `Mappings.decode_encode` — mappings of at least one line, read back from their text;
* `Mappings.fits_of_decode` — what is read fits;
* `Mappings.encode_readable` — a text that can be read is written anew without loss.
-/

namespace Retrace

/-- All numbers fit into 32 bits. -/
def Origin.Fits (o : Origin) : Prop :=
  o.source < 0x100000000 ∧ o.line < 0x100000000 ∧ o.column < 0x100000000 ∧
    ∀ n ∈ o.name, n < 0x100000000

def Segment.Fits (s : Segment) : Prop := s.column < 0x100000000 ∧ ∀ o ∈ s.origin, o.Fits

def Mappings.Fits (m : Mappings) : Prop := ∀ line ∈ m, ∀ s ∈ line, s.Fits

/-- Totals of 32-bit numbers. -/
structure Totals.Fits (t : Totals) : Prop where
  source : 0 ≤ t.source ∧ t.source < 0x100000000
  line : 0 ≤ t.line ∧ t.line < 0x100000000
  column : 0 ≤ t.column ∧ t.column < 0x100000000
  name : 0 ≤ t.name ∧ t.name < 0x100000000

theorem Totals.fits_zero : Totals.zero.Fits := by constructor <;> decide

theorem Totals.Fits.after {t : Totals} {o : Origin} (ht : t.Fits) (ho : o.Fits) :
    (t.after o).Fits := by
  rcases ho with ⟨hsource, hline, hcolumn, hname⟩
  refine ⟨⟨?_, ?_⟩, ⟨?_, ?_⟩, ⟨?_, ?_⟩, ?_⟩
  all_goals simp only [Totals.after]
  all_goals try omega
  cases hn : o.name with
  | none => exact ht.name
  | some n =>
    have hlt : n < 0x100000000 := hname n hn
    simp only [Option.map_some, Option.getD_some, Int.ofNat_eq_natCast]
    omega

theorem Totals.Fits.advance {t : Totals} {s : Segment} (ht : t.Fits) (hs : s.Fits) :
    (s.advance t).Fits := by
  unfold Segment.advance
  cases ho : s.origin with
  | none => exact ht
  | some o => exact ht.after (hs.2 o ho)

/-! ## Segments -/

theorem accumulate_natCast {n : Nat} (hn : n < 0x100000000) (total : Int) (field : SegmentField)
    (stop : Nat) : accumulate total (n - total) field stop = .ok (n : Int) := by
  have hsum : total + (n - total) = n := by omega
  unfold accumulate
  simp only [hsum]
  exact if_pos (by omega)

theorem index_natCast {n : Nat} (hn : n < 0x100000000) (field : SegmentField) (stop : Nat) :
    index n field stop = .ok n := by
  unfold index
  rw [if_pos (by omega), Int.toNat_natCast]

theorem index_eq_ok {value : Int} {field : SegmentField} {stop n : Nat}
    (h : index value field stop = .ok n) : n < 0x100000000 := by
  unfold index at h
  split at h
  · cases h
    omega
  · cases h

namespace Segment

variable {t : Totals} {column : Nat} {s : Segment}

theorem fields_unmapped (start : Nat) :
    fields t column ⟨start, none⟩ = [(start : Int) - column] := rfl

theorem fields_unnamed (start source line col : Nat) :
    fields t column ⟨start, some ⟨source, line, col, none⟩⟩
      = [(start : Int) - column, source - t.source, line - t.line, col - t.column] := rfl

theorem fields_named (start source line col name : Nat) :
    fields t column ⟨start, some ⟨source, line, col, some name⟩⟩
      = [(start : Int) - column, source - t.source, line - t.line, col - t.column,
        name - t.name] := rfl

theorem length_fields (t : Totals) (column : Nat) (s : Segment) :
    (s.fields t column).length ≤ 5 := by
  rcases s with ⟨start, _ | ⟨source, line, col, _ | name⟩⟩
  · exact Nat.le_add_left 1 4
  · exact Nat.le_add_left 4 1
  · exact Nat.le_refl 5

/-- Differences of 32-bit numbers are small. -/
theorem natAbs_of_mem_fields (ht : t.Fits) (hcolumn : column < 0x100000000) (hs : s.Fits) {v : Int}
    (hv : v ∈ s.fields t column) : v.natAbs < 0x8000000000000000 := by
  have htsource := ht.source
  have htline := ht.line
  have htcolumn := ht.column
  have htname := ht.name
  rcases hs with ⟨hstart, horigin⟩
  -- a segment has one, four or five numbers, each the difference of two that fit
  rcases s with ⟨start, _ | ⟨source, line, col, _ | name⟩⟩
  · rw [fields_unmapped, List.mem_singleton] at hv
    simp only at hstart
    omega
  · rcases horigin _ rfl with ⟨hsource, hline, hcol, -⟩
    rw [fields_unnamed] at hv
    simp only [List.mem_cons, List.not_mem_nil, or_false] at hv
    simp only at hstart hsource hline hcol
    omega
  · rcases horigin _ rfl with ⟨hsource, hline, hcol, hname⟩
    have hlt : name < 0x100000000 := hname name rfl
    rw [fields_named] at hv
    simp only [List.mem_cons, List.not_mem_nil, or_false] at hv
    simp only at hstart hsource hline hcol
    omega

/-- The digits of a few numbers are read as these numbers. -/
theorem readFields_encode (values : List Int)
    (hvalues : ∀ v ∈ values, v.natAbs < 0x8000000000000000) {room : Nat}
    (hroom : values.length ≤ room) (stop : Nat) :
    readFields stop room (Utf8.encode (values.flatMap Vlq.encode)) = .ok values := by
  induction values generalizing room with
  | nil =>
    rw [List.flatMap_nil, Utf8.encode, List.flatMap_nil, readFields]
  | cons v rest ih =>
    obtain ⟨room, rfl⟩ : ∃ k, room = k + 1 := Nat.exists_eq_add_one.2 (by
      simp only [List.length_cons] at hroom
      omega)
    have hbytes : Utf8.encode ((v :: rest).flatMap Vlq.encode)
        = Utf8.encode (Vlq.encode v) ++ Utf8.encode (rest.flatMap Vlq.encode) := by
      simp [Utf8.encode]
    have hread := Vlq.read_encode (hvalues v List.mem_cons_self)
      (Utf8.encode (rest.flatMap Vlq.encode))
    have hrest := ih (fun u hu => hvalues u (List.mem_cons_of_mem v hu))
      (Nat.le_of_succ_le_succ hroom)
    rw [hbytes]
    -- there are bytes left, or else no number could have been read
    cases hpiece : Utf8.encode (Vlq.encode v) ++ Utf8.encode (rest.flatMap Vlq.encode) with
    | nil =>
      rw [hpiece] at hread
      cases hread
    | cons b bytes =>
      rw [hpiece] at hread
      rw [readFields]
      simp only [hread, hrest]
      rfl

/-- A segment is read back from its differences. -/
theorem ofFields_fields (hs : s.Fits) (stop : Nat) :
    ofFields t column stop (s.fields t column) = .ok (s, s.advance t) := by
  rcases hs with ⟨hstart, horigin⟩
  -- a segment has one, four or five fields
  rcases s with ⟨start, _ | ⟨source, line, col, _ | name⟩⟩
  · rw [fields_unmapped]
    simp only at hstart
    simp only [ofFields, List.headD_cons, accumulate_natCast hstart, Except.ok_bind,
      index_natCast hstart]
    simp only [pure, Except.pure, unmapped, advance]
  · rcases horigin _ rfl with ⟨hsource, hline, hcol, -⟩
    rw [fields_unnamed]
    simp only at hstart hsource hline hcol
    simp only [ofFields, List.headD_cons, accumulate_natCast hstart, accumulate_natCast hsource,
      accumulate_natCast hline, accumulate_natCast hcol, Except.ok_bind, index_natCast hstart,
      index_natCast hsource, index_natCast hline, index_natCast hcol]
    simp only [pure, Except.pure, advance]
  · rcases horigin _ rfl with ⟨hsource, hline, hcol, hname⟩
    have hlt : name < 0x100000000 := hname name rfl
    rw [fields_named]
    simp only at hstart hsource hline hcol
    simp only [ofFields, List.headD_cons, accumulate_natCast hstart, accumulate_natCast hsource,
      accumulate_natCast hline, accumulate_natCast hcol, accumulate_natCast hlt, Except.ok_bind,
      index_natCast hstart, index_natCast hsource, index_natCast hline, index_natCast hcol,
      index_natCast hlt]
    simp only [pure, Except.pure, advance]

end Segment

/-! ## Lines -/

namespace Mappings

/-- Cutting at a separator, without the offsets. -/
theorem pieces_eq_splitOn (separator : UInt8) (start : Nat) (bytes : List UInt8) :
    (pieces separator start bytes).map Prod.fst = bytes.splitOn separator := by
  induction bytes generalizing start with
  | nil => rfl
  | cons b rest ih =>
    rw [List.splitOn_cons_eq_if_modifyHead, pieces]
    by_cases hb : b = separator
    · rw [if_pos hb, if_pos (beq_iff_eq.2 hb), List.map_cons, ih]
    · rw [if_neg hb, if_neg (by simpa using hb), ← ih (start + 1)]
      -- there is a piece to put `b` in front of
      cases hrest : pieces separator (start + 1) rest with
      | nil =>
        have hnil := ih (start + 1)
        rw [hrest] at hnil
        exact absurd hnil.symm (List.splitOn_ne_nil separator rest)
      | cons piece others => rfl

/-- Nothing in the text of a segment parts segments or lines. -/
theorem not_mem_encode_fields (values : List Int) {b : UInt8} (hb : Base64.digit? b = none) :
    b ∉ Utf8.encode (values.flatMap Vlq.encode) := by
  intro hmem
  rw [Utf8.encode, List.flatMap_assoc] at hmem
  rcases List.mem_flatMap.1 hmem with ⟨v, -, hv⟩
  have hdigit := Vlq.digit?_of_mem_encode hv
  rw [hb] at hdigit
  cases hdigit

theorem fits_lineTexts {t : Totals} (ht : t.Fits) {line : List Segment}
    (hline : ∀ s ∈ line, s.Fits) (column : Nat) : (lineTexts t column line).2.Fits := by
  induction line generalizing t column with
  | nil => exact ht
  | cons s rest ih =>
    exact ih (ht.advance (hline s List.mem_cons_self))
      (fun u hu => hline u (List.mem_cons_of_mem s hu)) s.column

/-- A line is read back from the texts of its segments. -/
theorem decodeLine_lineTexts {t : Totals} (ht : t.Fits) {line : List Segment}
    (hline : ∀ s ∈ line, s.Fits) {column : Nat} (hcolumn : column < 0x100000000)
    {cut : List (List UInt8 × Nat)}
    (hcut : cut.map Prod.fst = (lineTexts t column line).1.map Utf8.encode) :
    decodeLine t column cut = .ok (line, (lineTexts t column line).2) := by
  induction line generalizing t column cut with
  | nil =>
    have hnil : cut = [] := List.map_eq_nil_iff.1 hcut
    rw [hnil, decodeLine, lineTexts]
  | cons s rest ih =>
    have hs : s.Fits := hline s List.mem_cons_self
    cases cut with
    | nil => cases hcut
    | cons head cut =>
      rcases head with ⟨piece, stop⟩
      simp only [lineTexts, List.map_cons, List.cons.injEq] at hcut
      rcases hcut with ⟨hpiece, hcut⟩
      have hfields := Segment.readFields_encode (s.fields t column)
        (fun v hv => Segment.natAbs_of_mem_fields ht hcolumn hs hv)
        (Segment.length_fields t column s) stop
      have hrest := ih (ht.advance hs) (fun u hu => hline u (List.mem_cons_of_mem s hu)) hs.1 hcut
      rw [← hpiece] at hfields
      -- an empty piece stands for no segment and would be passed over
      have hne : piece ≠ [] := by
        rintro rfl
        rw [Segment.readFields] at hfields
        cases hfields
      rw [decodeLine, hfields, Except.ok_bind, Segment.ofFields_fields hs, Except.ok_bind]
      · simp only [hrest, Except.ok_bind]
        rfl
      · exact hne

/-- Parting texts by a character and encoding them, in either order. -/
theorem encode_intercalate {c : Char} {b : UInt8} (hc : String.utf8EncodeChar c = [b])
    (texts : List (List Char)) :
    Utf8.encode (List.intercalate [c] texts) = List.intercalate [b] (texts.map Utf8.encode) := by
  induction texts with
  | nil => rfl
  | cons head rest ih =>
    cases rest with
    | nil => simp [List.intercalate_singleton]
    | cons next rest =>
      rw [List.map_cons, List.map_cons, List.intercalate_cons_cons, List.intercalate_cons_cons,
        ← List.map_cons, ← ih]
      simp [Utf8.encode, hc]

theorem not_mem_encode_intercalate {c : Char} {b b' : UInt8} (hc : String.utf8EncodeChar c = [b])
    (hb : b' ≠ b) {texts : List (List Char)} (htexts : ∀ text ∈ texts, b' ∉ Utf8.encode text) :
    b' ∉ Utf8.encode (List.intercalate [c] texts) := by
  rw [encode_intercalate hc]
  induction texts with
  | nil => exact List.not_mem_nil
  | cons head rest ih =>
    have hhead := htexts head List.mem_cons_self
    have hrest := ih fun text htext => htexts text (List.mem_cons_of_mem head htext)
    cases rest with
    | nil =>
      rw [List.map_singleton, List.intercalate_singleton]
      exact hhead
    | cons next rest =>
      rw [List.map_cons, List.map_cons, List.intercalate_cons_cons, ← List.map_cons]
      simp only [List.mem_append, List.mem_singleton, not_or]
      exact ⟨⟨hhead, hb⟩, hrest⟩

/-- The pieces of texts that were put together with a separator that none of them has. -/
theorem pieces_intercalate {c : Char} {b : UInt8} (hc : String.utf8EncodeChar c = [b])
    {texts : List (List Char)} (htexts : ∀ text ∈ texts, b ∉ Utf8.encode text) (hne : texts ≠ [])
    (start : Nat) :
    (pieces b start (Utf8.encode (List.intercalate [c] texts))).map Prod.fst
      = texts.map Utf8.encode := by
  rw [pieces_eq_splitOn, encode_intercalate hc]
  refine List.splitOn_intercalate b ?_ (by simpa using hne)
  intro bytes hbytes
  rcases List.mem_map.1 hbytes with ⟨text, htext, rfl⟩
  exact htexts text htext

/-- The text of a segment has digits only. -/
theorem not_mem_lineTexts (t : Totals) (column : Nat) (line : List Segment) {b : UInt8}
    (hb : Base64.digit? b = none) :
    ∀ text ∈ (lineTexts t column line).1, b ∉ Utf8.encode text := by
  induction line generalizing t column with
  | nil =>
    intro text htext
    cases htext
  | cons s rest ih =>
    intro text htext
    rcases List.mem_cons.1 htext with rfl | hrest
    · exact not_mem_encode_fields _ hb
    · exact ih _ _ text hrest

theorem length_lineTexts (t : Totals) (column : Nat) (line : List Segment) :
    (lineTexts t column line).1.length = line.length := by
  induction line generalizing t column with
  | nil => rfl
  | cons s rest ih => exact congrArg Nat.succ (ih _ _)

/-- The text of a line has digits and commas only. -/
theorem not_mem_texts (t : Totals) (m : Mappings) {b : UInt8} (hb : Base64.digit? b = none)
    (hcomma : b ≠ 44) : ∀ text ∈ texts t m, b ∉ Utf8.encode text := by
  induction m generalizing t with
  | nil =>
    intro text htext
    cases htext
  | cons line rest ih =>
    intro text htext
    rcases List.mem_cons.1 htext with rfl | hrest
    · exact not_mem_encode_intercalate (by decide) hcomma (not_mem_lineTexts t 0 line hb)
    · exact ih _ text hrest

/-- A line is read back from its text. -/
theorem decodeLine_text {t : Totals} (ht : t.Fits) {line : List Segment}
    (hline : ∀ s ∈ line, s.Fits) (start : Nat) :
    decodeLine t 0 (pieces 44 start (Utf8.encode (List.intercalate [','] (lineTexts t 0 line).1)))
      = .ok (line, (lineTexts t 0 line).2) := by
  cases line with
  -- a line without segments has the empty text, which is one empty piece
  | nil => rfl
  | cons s rest =>
    have hne : (lineTexts t 0 (s :: rest)).1 ≠ [] := by
      intro hnil
      have hlength := length_lineTexts t 0 (s :: rest)
      rw [hnil] at hlength
      cases hlength
    exact decodeLine_lineTexts ht hline (by decide)
      (pieces_intercalate (by decide) (not_mem_lineTexts t 0 (s :: rest) (by decide)) hne start)

theorem decodeLines_texts {t : Totals} (ht : t.Fits) {m : Mappings} (hm : m.Fits)
    {cut : List (List UInt8 × Nat)} (hcut : cut.map Prod.fst = (texts t m).map Utf8.encode) :
    decodeLines t cut = .ok m := by
  induction m generalizing t cut with
  | nil =>
    have hnil : cut = [] := List.map_eq_nil_iff.1 hcut
    rw [hnil, decodeLines]
  | cons line rest ih =>
    have hline : ∀ s ∈ line, s.Fits := hm line List.mem_cons_self
    cases cut with
    | nil => cases hcut
    | cons head cut =>
      rcases head with ⟨text, stop⟩
      simp only [texts, List.map_cons, List.cons.injEq] at hcut
      rcases hcut with ⟨rfl, hcut⟩
      rw [decodeLines, decodeLine_text ht hline, Except.ok_bind]
      simp only
      rw [ih (fits_lineTexts ht hline 0) (fun l hl => hm l (List.mem_cons_of_mem line hl)) hcut,
        Except.ok_bind]
      rfl

/-- Mappings of at least one line are read back from their text. -/
theorem decode_encode {m : Mappings} (hne : m ≠ []) (hm : m.Fits) : decode m.encode = .ok m := by
  have hnonempty : texts Totals.zero m ≠ [] := by
    cases m with
    | nil => exact absurd rfl hne
    | cons line rest => exact List.cons_ne_nil _ _
  refine decodeLines_texts Totals.fits_zero hm ?_
  rw [Utf8.ofString, encode, String.toList_ofList]
  exact pieces_intercalate (by decide)
    (not_mem_texts Totals.zero m (by decide) (by decide)) hnonempty 0

end Mappings

/-! ## What is read -/

/-- A segment that is read fits. -/
theorem Segment.fits_of_ofFields {t next : Totals} {column stop : Nat} {fields : List Int}
    {s : Segment} (h : ofFields t column stop fields = .ok (s, next)) : s.Fits := by
  unfold ofFields at h
  rcases Except.bind_eq_ok.1 h with ⟨moved, -, h⟩
  rcases Except.bind_eq_ok.1 h with ⟨start, hstart, h⟩
  have hcolumn : start < 0x100000000 := index_eq_ok hstart
  -- unmapped, then with an origin, then with a number of fields that is refused
  split at h
  · cases h
    exact ⟨hcolumn, fun o ho => by cases ho⟩
  · rcases Except.bind_eq_ok.1 h with ⟨source, -, h⟩
    rcases Except.bind_eq_ok.1 h with ⟨line, -, h⟩
    rcases Except.bind_eq_ok.1 h with ⟨sourceColumn, -, h⟩
    rcases Except.bind_eq_ok.1 h with ⟨source', hsource, h⟩
    rcases Except.bind_eq_ok.1 h with ⟨line', hline, h⟩
    rcases Except.bind_eq_ok.1 h with ⟨column', hsourceColumn, h⟩
    split at h
    · cases h
      refine ⟨hcolumn, ?_⟩
      rintro o ⟨⟩
      exact ⟨index_eq_ok hsource, index_eq_ok hline, index_eq_ok hsourceColumn,
        fun n hn => by cases hn⟩
    · rcases Except.bind_eq_ok.1 h with ⟨name, -, h⟩
      rcases Except.bind_eq_ok.1 h with ⟨name', hname, h⟩
      cases h
      refine ⟨hcolumn, ?_⟩
      rintro o ⟨⟩
      refine ⟨index_eq_ok hsource, index_eq_ok hline, index_eq_ok hsourceColumn, ?_⟩
      rintro n ⟨⟩
      exact index_eq_ok hname
  · cases h

namespace Mappings

theorem fits_of_decodeLine {t last : Totals} {column : Nat} {cut : List (List UInt8 × Nat)}
    {line : List Segment} (h : decodeLine t column cut = .ok (line, last)) :
    ∀ s ∈ line, s.Fits := by
  fun_induction decodeLine t column cut generalizing line last with
  | case1 t column =>
    cases h
    intro s hs
    cases hs
  | case2 t column stop rest ih => exact ih h
  | case3 t column piece stop rest hne ih =>
    rcases Except.bind_eq_ok.1 h with ⟨fields, -, h⟩
    rcases Except.bind_eq_ok.1 h with ⟨⟨segment, next⟩, hsegment, h⟩
    rcases Except.bind_eq_ok.1 h with ⟨⟨segments, last'⟩, hrest, h⟩
    cases h
    intro s hs
    rcases List.mem_cons.1 hs with rfl | hs
    · exact Segment.fits_of_ofFields hsegment
    · exact ih _ _ hrest s hs

theorem fits_of_decodeLines {t : Totals} {cut : List (List UInt8 × Nat)} {m : Mappings}
    (h : decodeLines t cut = .ok m) : m.Fits := by
  induction cut generalizing t m with
  | nil =>
    cases h
    intro line hline
    cases hline
  | cons head rest ih =>
    rcases head with ⟨text, stop⟩
    rw [decodeLines] at h
    rcases Except.bind_eq_ok.1 h with ⟨⟨segments, next⟩, hsegments, h⟩
    rcases Except.bind_eq_ok.1 h with ⟨lines, hlines, h⟩
    cases h
    intro line hline
    rcases List.mem_cons.1 hline with rfl | hline
    · exact fits_of_decodeLine hsegments
    · exact ih hlines line hline

/-- Mappings that are read fit. -/
theorem fits_of_decode {text : String} {m : Mappings} (h : decode text = .ok m) : m.Fits :=
  fits_of_decodeLines h

/-- Even the empty text has a line. -/
theorem ne_nil_of_decode {text : String} {m : Mappings} (h : decode text = .ok m) : m ≠ [] := by
  have hcut : pieces 59 0 (Utf8.ofString text) ≠ [] := by
    intro hnil
    have hsplit := pieces_eq_splitOn 59 0 (Utf8.ofString text)
    rw [hnil] at hsplit
    exact List.splitOn_ne_nil _ _ hsplit.symm
  rw [decode] at h
  cases hpieces : pieces 59 0 (Utf8.ofString text) with
  | nil => exact absurd hpieces hcut
  | cons head rest =>
    rw [hpieces, decodeLines] at h
    rcases Except.bind_eq_ok.1 h with ⟨⟨segments, next⟩, -, h⟩
    rcases Except.bind_eq_ok.1 h with ⟨lines, -, h⟩
    cases h
    exact List.cons_ne_nil _ _

/-! ## There and back -/

/-- Mappings of at least one line are read back from their text.  So a text that can be read has a
written form that stands for the same mappings, and writing what the written form stands for changes
nothing more. -/
theorem encode_readable :
    (∀ m : Mappings, m ≠ [] → m.Fits → decode m.encode = .ok m) ∧
      ∀ (text : String) (m : Mappings), decode text = .ok m →
        decode m.encode = .ok m ∧ (decode m.encode).map encode = .ok m.encode := by
  refine ⟨fun m hne hm => decode_encode hne hm, ?_⟩
  intro text m hread
  have hback : decode m.encode = .ok m :=
    decode_encode (ne_nil_of_decode hread) (fits_of_decode hread)
  refine ⟨hback, ?_⟩
  rw [hback]
  rfl

/-- Columns that go back, the largest numbers, names on and off, and a line without segments; and a
text that spells zero with two digits and has empty pieces. -/
theorem encode_readable_backwards :
    decode (encode [[⟨0xFFFFFFFF, some ⟨0xFFFFFFFF, 0, 7, some 0xFFFFFFFF⟩⟩, ⟨1, none⟩,
        ⟨1, some ⟨0, 0xFFFFFFFF, 0, none⟩⟩], [], [⟨2, some ⟨3, 0, 0, some 0⟩⟩]])
      = .ok [[⟨0xFFFFFFFF, some ⟨0xFFFFFFFF, 0, 7, some 0xFFFFFFFF⟩⟩, ⟨1, none⟩,
        ⟨1, some ⟨0, 0xFFFFFFFF, 0, none⟩⟩], [], [⟨2, some ⟨3, 0, 0, some 0⟩⟩]] ∧
      decode ",gA,,CAAA;" = .ok [[⟨0, none⟩, ⟨1, some ⟨0, 0, 0, none⟩⟩], []] ∧
      decode (encode [[⟨0, none⟩, ⟨1, some ⟨0, 0, 0, none⟩⟩], []])
        = .ok [[⟨0, none⟩, ⟨1, some ⟨0, 0, 0, none⟩⟩], []] := by
  have hfits : Mappings.Fits [[⟨0xFFFFFFFF, some ⟨0xFFFFFFFF, 0, 7, some 0xFFFFFFFF⟩⟩, ⟨1, none⟩,
      ⟨1, some ⟨0, 0xFFFFFFFF, 0, none⟩⟩], [], [⟨2, some ⟨3, 0, 0, some 0⟩⟩]] := by
    simp [Mappings.Fits, Segment.Fits, Origin.Fits]
  have hread : decode ",gA,,CAAA;" = .ok [[⟨0, none⟩, ⟨1, some ⟨0, 0, 0, none⟩⟩], []] := rfl
  exact ⟨encode_readable.1 _ (List.cons_ne_nil _ _) hfits, hread,
    (encode_readable.2 _ _ hread).1⟩

end Mappings

end Retrace
