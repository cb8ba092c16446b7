import Mathlib.Algebra.Ring.Int.Defs
import Mathlib.Data.List.Forall2
import Mathlib.Data.Set.List
import Retrace.Proofs.SourceMap.Codec
import Retrace.Proofs.SourceMap.Scan
import Retrace.Proofs.Text.Utf8

/-!
# Grammar — the texts that stand for mappings

* `Vlq.Spells`, `Segment.Spells`, `Mappings.Spells` — the numbers that a text is made of, line by
  line and piece by piece;
* `Mappings.totals` — what these numbers come to, each added to those of its kind before it;
* `Mappings.decode_eq_ok_iff` — a text stands for the mappings whose numbers are its totals;
* `Mappings.decode_exact` — so it can be read if it is made of such numbers and their totals fit.
-/

namespace Retrace

/-! ## What a text is made of -/

/-- Bytes that are one number after another. -/
inductive Vlq.Spells : List UInt8 → List Int → Prop
  | nil : Spells [] []
  | cons {bytes rest : List UInt8} {v : Int} {values : List Int} :
      read bytes = .ok (v, rest) → Spells rest values → Spells bytes (v :: values)

/-- A piece of text that is one, four or five numbers. -/
def Segment.Spells (piece : List UInt8) (values : List Int) : Prop :=
  Vlq.Spells piece values ∧ (values.length = 1 ∨ values.length = 4 ∨ values.length = 5)

/-- The numbers of every piece of every line.  Empty pieces do not count. -/
def Mappings.Spells (text : String) (rows : List (List (List Int))) : Prop :=
  List.Forall₂
    (fun line row => List.Forall₂ (fun piece values => Segment.Spells (Utf8.encode piece) values)
      ((line.splitOn ',').filter (· ≠ [])) row)
    (text.toList.splitOn ';') rows

/-! ## What its numbers come to -/

namespace Mappings

/-- The sum of the numbers at place `k`, where there are such. -/
def sumAt (k : Nat) (pieces : List (List Int)) : Int := (pieces.map (·.getD k 0)).sum

/-- The total at place `k` after the pieces `line` of a line and all pieces `before` that line.  The
generated column, which has place 0, starts over on every line. -/
def totalAt (k : Nat) (before line : List (List Int)) : Int :=
  if k = 0 then sumAt 0 line else sumAt k (before ++ line)

/-- Every number replaced by the total after it. -/
def totals (rows : List (List (List Int))) : List (List (List Int)) :=
  rows.mapIdx fun i row => row.mapIdx fun j piece => piece.mapIdx fun k _ =>
    totalAt k (rows.take i).flatten (row.take (j + 1))

/-- All totals are 32-bit numbers. -/
def InRange (rows : List (List (List Int))) : Prop :=
  ∀ row ∈ totals rows, ∀ piece ∈ row, ∀ n ∈ piece, 0 ≤ n ∧ n < 0x100000000

end Mappings

/-- The numbers of a segment, in the order in which they are written. -/
def Segment.numbers (s : Segment) : List Int :=
  (s.column : Int) ::
    match s.origin with
    | none => []
    | some o => [(o.source : Int), (o.line : Int), (o.column : Int)]
        ++ (o.name.map fun n => (n : Int)).toList

/-! ## Numbers -/

namespace Vlq

theorem spells_nil_iff {values : List Int} : Spells [] values ↔ values = [] := by
  constructor
  · intro h
    cases h with
    | nil => rfl
    | cons hread _ => cases hread
  · rintro rfl
    exact .nil

theorem spells_cons_iff {b : UInt8} {bytes : List UInt8} {values : List Int} :
    Spells (b :: bytes) values ↔ ∃ v rest others, read (b :: bytes) = .ok (v, rest) ∧
      Spells rest others ∧ values = v :: others := by
  constructor
  · intro h
    cases h with
    | cons hread hrest => exact ⟨_, _, _, hread, hrest, rfl⟩
  · rintro ⟨v, rest, others, hread, hrest, rfl⟩
    exact .cons hread hrest

theorem Spells.unique {bytes : List UInt8} {values values' : List Int} (h : Spells bytes values)
    (h' : Spells bytes values') : values = values' := by
  induction h generalizing values' with
  | nil => exact (spells_nil_iff.1 h').symm
  | cons hread hrest ih =>
    cases h' with
    | nil => cases hread
    | cons hread' hrest' =>
      cases hread.symm.trans hread'
      rw [ih hrest']

end Vlq

namespace Segment

theorem readFields_nil_eq_ok_iff {stop room : Nat} {values : List Int} :
    readFields stop room [] = .ok values ↔ Vlq.Spells [] values ∧ values.length ≤ room := by
  rw [readFields, Vlq.spells_nil_iff]
  constructor
  · rintro ⟨⟩
    exact ⟨rfl, Nat.zero_le _⟩
  · rintro ⟨rfl, -⟩
    rfl

/-- Reading a piece finds the numbers that it is made of, if there are not too many. -/
theorem readFields_eq_ok_iff {stop room : Nat} {piece : List UInt8} {values : List Int} :
    readFields stop room piece = .ok values ↔ Vlq.Spells piece values ∧ values.length ≤ room := by
  induction room generalizing piece values with
  | zero =>
    cases piece with
    | nil => exact readFields_nil_eq_ok_iff
    | cons b rest =>
      rw [readFields]
      constructor
      · rintro ⟨⟩
      · rintro ⟨hspells, hlength⟩
        rw [List.eq_nil_of_length_eq_zero (Nat.le_zero.1 hlength)] at hspells
        cases hspells
  | succ room ih =>
    cases piece with
    | nil => exact readFields_nil_eq_ok_iff
    | cons b rest =>
      rw [readFields, Vlq.spells_cons_iff]
      cases hread : Vlq.read (b :: rest) with
      | error at? =>
        constructor
        · rintro ⟨⟩
        · rintro ⟨⟨v, left, others, hnone, -, -⟩, -⟩
          cases hnone
      | ok number =>
        rcases number with ⟨v, left⟩
        rw [Except.bind_eq_ok]
        constructor
        · rintro ⟨others, hothers, hvalues⟩
          cases hvalues
          rcases ih.1 hothers with ⟨hspells, hlength⟩
          exact ⟨⟨v, left, others, rfl, hspells, rfl⟩, Nat.succ_le_succ hlength⟩
        · rintro ⟨⟨v', left', others, hnumber, hspells, rfl⟩, hlength⟩
          cases hnumber
          exact ⟨others, ih.2 ⟨hspells, Nat.le_of_succ_le_succ hlength⟩, rfl⟩

/-- A difference is found back from the two totals around it. -/
theorem eq_sub_of_index {total delta sum : Int} {field : SegmentField} {stop n : Nat}
    (hsum : accumulate total delta field stop = .ok sum) (hn : index sum field stop = .ok n) :
    delta = n - total := by
  unfold accumulate at hsum
  unfold index at hn
  simp only at hsum
  split at hsum
  · cases hsum
    split at hn
    · cases hn
      omega
    · cases hn
  · cases hsum

/-- Differences that a segment is read from are those that it is written as. -/
theorem eq_fields_of_ofFields {t next : Totals} {column stop : Nat} {values : List Int}
    {s : Segment} (hlength : values.length ≤ 5)
    (h : ofFields t column stop values = .ok (s, next)) :
    values = s.fields t column ∧ next = s.advance t := by
  unfold ofFields at h
  rcases Except.bind_eq_ok.1 h with ⟨moved, hmoved, h⟩
  rcases Except.bind_eq_ok.1 h with ⟨start, hstart, h⟩
  have hcolumn := eq_sub_of_index hmoved hstart
  -- unmapped, then with an origin, then with a number of fields that is refused
  split at h
  · cases h
    rw [List.headD_cons] at hcolumn
    rw [unmapped, fields_unmapped, hcolumn]
    exact ⟨rfl, rfl⟩
  · rename_i dStart dSource dLine dColumn named _ _
    rcases Except.bind_eq_ok.1 h with ⟨source, hsource, h⟩
    rcases Except.bind_eq_ok.1 h with ⟨line, hline, h⟩
    rcases Except.bind_eq_ok.1 h with ⟨sourceColumn, hsourceColumn, h⟩
    rcases Except.bind_eq_ok.1 h with ⟨source', hsource', h⟩
    rcases Except.bind_eq_ok.1 h with ⟨line', hline', h⟩
    rcases Except.bind_eq_ok.1 h with ⟨column', hcolumn', h⟩
    rw [List.headD_cons] at hcolumn
    rw [hcolumn, eq_sub_of_index hsource hsource', eq_sub_of_index hline hline',
      eq_sub_of_index hsourceColumn hcolumn']
    cases named with
    | nil =>
      cases h
      exact ⟨rfl, rfl⟩
    | cons dName more =>
      rcases Except.bind_eq_ok.1 h with ⟨name, hname, h⟩
      rcases Except.bind_eq_ok.1 h with ⟨name', hname', h⟩
      cases h
      have hmore : more = [] := by
        refine List.eq_nil_of_length_eq_zero ?_
        simp only [List.length_cons] at hlength
        omega
      rw [hmore, eq_sub_of_index hname hname', fields_named]
      exact ⟨rfl, rfl⟩
  · cases h

end Segment

/-! ## Totals -/

namespace Mappings

theorem sumAt_concat (k : Nat) (pieces : List (List Int)) (piece : List Int) :
    sumAt k (pieces ++ [piece]) = sumAt k pieces + piece.getD k 0 := by
  simp [sumAt]

theorem totalAt_concat (k : Nat) (before line : List (List Int)) (piece : List Int) :
    totalAt k before (line ++ [piece]) = totalAt k before line + piece.getD k 0 := by
  unfold totalAt
  split
  · rename_i hk
    rw [sumAt_concat, hk]
  · rw [← List.append_assoc, sumAt_concat]

end Mappings

/-- The running numbers after some pieces. -/
def Totals.ofPieces (pieces : List (List Int)) : Totals where
  source := Mappings.sumAt 1 pieces
  line := Mappings.sumAt 2 pieces
  column := Mappings.sumAt 3 pieces
  name := Mappings.sumAt 4 pieces

namespace Segment

open Mappings (totalAt sumAt)

variable {before done : List (List Int)} {values : List Int} {column stop : Nat} {s : Segment}

theorem numbers_unmapped (start : Nat) : numbers ⟨start, none⟩ = [(start : Int)] := rfl

theorem numbers_unnamed (start source line col : Nat) :
    numbers ⟨start, some ⟨source, line, col, none⟩⟩
      = [(start : Int), (source : Int), (line : Int), (col : Int)] := rfl

theorem numbers_named (start source line col name : Nat) :
    numbers ⟨start, some ⟨source, line, col, some name⟩⟩
      = [(start : Int), (source : Int), (line : Int), (col : Int), (name : Int)] := rfl

theorem length_numbers (s : Segment) :
    s.numbers.length = 1 ∨ s.numbers.length = 4 ∨ s.numbers.length = 5 := by
  rcases s with ⟨start, _ | ⟨source, line, col, _ | name⟩⟩
  · exact .inl rfl
  · exact .inr (.inl rfl)
  · exact .inr (.inr rfl)

/-- A segment is written as what its numbers exceed the totals before it by. -/
theorem fields_eq_mapIdx (hcolumn : (column : Int) = sumAt 0 done) (s : Segment) :
    s.fields (.ofPieces (before ++ done)) column
      = s.numbers.mapIdx fun k n => n - totalAt k before done := by
  rcases s with ⟨start, _ | ⟨source, line, col, _ | name⟩⟩
  · simp [fields_unmapped, numbers_unmapped, totalAt, hcolumn]
  · simp [fields_unnamed, numbers_unnamed, totalAt, hcolumn, Totals.ofPieces]
  · simp [fields_named, numbers_named, totalAt, hcolumn, Totals.ofPieces]

/-- Taking something off at every place and putting it back. -/
theorem eq_mapIdx_sub_iff (f : Nat → Int) {xs ys : List Int} :
    xs = ys.mapIdx (fun k n => n - f k) ↔ ys = xs.mapIdx fun k v => f k + v := by
  constructor
  · rintro rfl
    refine List.ext_getElem (by simp) fun k h h' => ?_
    simp only [List.getElem_mapIdx]
    omega
  · rintro rfl
    refine List.ext_getElem (by simp) fun k h h' => ?_
    simp only [List.getElem_mapIdx]
    omega

/-- Differences are those of a segment if its numbers are the totals after them. -/
theorem eq_fields_iff (hcolumn : (column : Int) = sumAt 0 done) :
    values = s.fields (.ofPieces (before ++ done)) column ↔
      s.numbers = values.mapIdx fun k _ => totalAt k before (done ++ [values]) := by
  -- the total at a place is the one before it and the number at that place
  have htotals : (values.mapIdx fun k _ => totalAt k before (done ++ [values]))
      = values.mapIdx fun k v => totalAt k before done + v := by
    refine List.mapIdx_eq_mapIdx_iff.2 fun k hk => ?_
    rw [Mappings.totalAt_concat, List.getD_eq_getElem?_getD, List.getElem?_eq_getElem hk,
      Option.getD_some]
  rw [fields_eq_mapIdx hcolumn, htotals]
  exact eq_mapIdx_sub_iff _

theorem advance_ofPieces (pieces : List (List Int)) (column : Nat) (s : Segment) :
    s.advance (.ofPieces pieces)
      = .ofPieces (pieces ++ [s.fields (.ofPieces pieces) column]) := by
  simp only [Totals.ofPieces, Mappings.sumAt_concat]
  rcases s with ⟨start, _ | ⟨source, line, col, _ | name⟩⟩
  · simp only [advance, fields_unmapped, List.getD_cons_succ, List.getD_nil, Int.add_zero]
  · simp only [advance, Totals.after, fields_unnamed, List.getD_cons_succ, List.getD_cons_zero,
      List.getD_nil, Option.map_none, Option.getD_none, Totals.mk.injEq]
    omega
  · simp only [advance, Totals.after, fields_named, List.getD_cons_succ, List.getD_cons_zero,
      Option.map_some, Option.getD_some, Int.ofNat_eq_natCast, Totals.mk.injEq]
    omega

/-- Reading a segment from its differences gives the totals after them, if these fit. -/
theorem ofFields_eq_ok_iff {next : Totals} (hcolumn : (column : Int) = sumAt 0 done)
    (hlength : values.length ≤ 5) :
    ofFields (.ofPieces (before ++ done)) column stop values = .ok (s, next) ↔
      s.numbers = (values.mapIdx fun k _ => totalAt k before (done ++ [values])) ∧ s.Fits ∧
        next = .ofPieces (before ++ (done ++ [values])) := by
  rw [← eq_fields_iff hcolumn, ← List.append_assoc]
  constructor
  · intro h
    rcases eq_fields_of_ofFields hlength h with ⟨hvalues, hnext⟩
    refine ⟨hvalues, fits_of_ofFields h, ?_⟩
    rw [hnext, hvalues]
    exact advance_ofPieces _ _ s
  · rintro ⟨rfl, hfits, rfl⟩
    rw [← advance_ofPieces]
    exact ofFields_fields hfits stop

/-- What a piece of text is read as. -/
theorem read_eq_ok_iff {piece : List UInt8} {next : Totals}
    (hcolumn : (column : Int) = sumAt 0 done) :
    (readFields stop 5 piece >>= ofFields (.ofPieces (before ++ done)) column stop)
        = .ok (s, next) ↔
      ∃ values, Spells piece values ∧
        s.numbers = (values.mapIdx fun k _ => totalAt k before (done ++ [values])) ∧ s.Fits ∧
          next = .ofPieces (before ++ (done ++ [values])) := by
  rw [Except.bind_eq_ok]
  constructor
  · rintro ⟨values, hvalues, hs⟩
    rcases readFields_eq_ok_iff.1 hvalues with ⟨hspells, hlength⟩
    have h := (ofFields_eq_ok_iff hcolumn hlength).1 hs
    have hshape := s.length_numbers
    rw [h.1, List.length_mapIdx] at hshape
    exact ⟨values, ⟨hspells, hshape⟩, h⟩
  · rintro ⟨values, ⟨hspells, hshape⟩, h⟩
    have hlength : values.length ≤ 5 := by omega
    exact ⟨values, readFields_eq_ok_iff.2 ⟨hspells, hlength⟩,
      (ofFields_eq_ok_iff hcolumn hlength).2 h⟩

theorem column_eq_sumAt
    (h : s.numbers = values.mapIdx fun k _ => totalAt k before (done ++ [values])) :
    (s.column : Int) = sumAt 0 (done ++ [values]) := by
  cases values with
  | nil => cases h
  | cons v rest =>
    rw [List.mapIdx_cons] at h
    exact (List.cons.inj h).1

end Segment

/-! ## Lines -/

namespace Mappings

/-- The totals of the pieces of a line, where `done` are the pieces of the line before them. -/
def lineTotals (before done row : List (List Int)) : List (List Int) :=
  row.mapIdx fun j piece => piece.mapIdx fun k _ => totalAt k before (done ++ row.take (j + 1))

theorem lineTotals_cons (before done : List (List Int)) (values : List Int)
    (row : List (List Int)) :
    lineTotals before done (values :: row)
      = (values.mapIdx fun k _ => totalAt k before (done ++ [values]))
        :: lineTotals before (done ++ [values]) row := by
  rw [lineTotals, List.mapIdx_cons, lineTotals]
  simp only [List.take_succ_cons, List.take_zero, List.append_assoc, List.singleton_append]

/-- The bytes of the pieces of a line, each with its numbers. -/
def LineSpells (pieces : List (List UInt8)) (row : List (List Int)) : Prop :=
  List.Forall₂ Segment.Spells (pieces.filter (· ≠ [])) row

theorem lineSpells_cons {b : UInt8} {bytes : List UInt8} {pieces : List (List UInt8)}
    {row : List (List Int)} :
    LineSpells ((b :: bytes) :: pieces) row ↔
      ∃ values rest, Segment.Spells (b :: bytes) values ∧ LineSpells pieces rest ∧
        row = values :: rest := by
  have hfilter : ((b :: bytes) :: pieces).filter (· ≠ [])
      = (b :: bytes) :: pieces.filter (· ≠ []) := rfl
  rw [LineSpells, hfilter, List.forall₂_cons_left_iff]
  rfl

variable {before done : List (List Int)} {column : Nat} {cut : List (List UInt8 × Nat)}

theorem decodeLine_cons (t : Totals) (column : Nat) (b : UInt8) (bytes : List UInt8) (stop : Nat)
    (cut : List (List UInt8 × Nat)) :
    decodeLine t column ((b :: bytes, stop) :: cut)
      = (Segment.readFields stop 5 (b :: bytes) >>= Segment.ofFields t column stop) >>= fun first =>
          decodeLine first.2 first.1.column cut >>= fun others =>
            .ok (first.1 :: others.1, others.2) := by
  rw [decodeLine]
  · rw [bind_assoc]
    rfl
  · exact List.cons_ne_nil _ _

/-- A line stands for segments whose numbers are the totals of its pieces. -/
theorem decodeLine_eq_ok_iff {line : List Segment} {last : Totals}
    (hcolumn : (column : Int) = sumAt 0 done) :
    decodeLine (.ofPieces (before ++ done)) column cut = .ok (line, last) ↔
      ∃ row, LineSpells (cut.map Prod.fst) row ∧
        line.map Segment.numbers = lineTotals before done row ∧ (∀ s ∈ line, s.Fits) ∧
        last = .ofPieces (before ++ (done ++ row)) := by
  -- on the pieces: each that is not empty goes over from those ahead to those that are `done`
  induction cut generalizing done column line with
  | nil =>
    rw [decodeLine]
    constructor
    · rintro ⟨⟩
      exact ⟨[], .nil, rfl, fun s hs => (by cases hs), by rw [List.append_nil]⟩
    · rintro ⟨row, hrow, hline, -, hlast⟩
      cases hrow
      rw [List.map_eq_nil_iff.1 hline, hlast, List.append_nil]
  | cons head cut ih =>
    rcases head with ⟨_ | ⟨b, bytes⟩, stop⟩
    -- an empty piece is passed over
    · rw [decodeLine]
      exact ih hcolumn
    · rw [decodeLine_cons, List.map_cons]
      constructor
      · intro h
        rcases Except.bind_eq_ok.1 h with ⟨⟨s, next⟩, hs, h⟩
        rcases Except.bind_eq_ok.1 h with ⟨⟨segments, last'⟩, hrest, h⟩
        cases h
        rcases (Segment.read_eq_ok_iff hcolumn).1 hs with ⟨values, hspells, hnumbers, hfits, rfl⟩
        rcases (ih (Segment.column_eq_sumAt hnumbers)).1 hrest with
          ⟨row, hrow, hsegments, hall, hlast⟩
        refine ⟨values :: row, lineSpells_cons.2 ⟨values, row, hspells, hrow, rfl⟩, ?_,
          List.forall_mem_cons.2 ⟨hfits, hall⟩, ?_⟩
        · rw [List.map_cons, hnumbers, hsegments, lineTotals_cons]
        · rw [hlast, List.append_assoc, List.singleton_append]
      · rintro ⟨row, hrow, hline, hfits, hlast⟩
        rcases lineSpells_cons.1 hrow with ⟨values, rest, hspells, hrest, rfl⟩
        rw [lineTotals_cons] at hline
        rcases List.map_eq_cons_iff.1 hline with ⟨s, segments, rfl, hnumbers, hsegments⟩
        rcases List.forall_mem_cons.1 hfits with ⟨hs, hall⟩
        have hlast' : last = .ofPieces (before ++ (done ++ [values] ++ rest)) := by
          rw [hlast, List.append_assoc, List.singleton_append]
        rw [(Segment.read_eq_ok_iff hcolumn).2 ⟨values, hspells, hnumbers, hs, rfl⟩]
        simp only [Except.ok_bind]
        rw [(ih (Segment.column_eq_sumAt hnumbers)).2 ⟨rest, hrest, hsegments, hall, hlast'⟩]
        rfl

/-- The totals of lines, where `before` are the pieces of the lines before them. -/
def rowTotals (before : List (List Int)) (rows : List (List (List Int))) :
    List (List (List Int)) :=
  rows.mapIdx fun i row => lineTotals (before ++ (rows.take i).flatten) [] row

theorem rowTotals_cons (before row : List (List Int)) (rows : List (List (List Int))) :
    rowTotals before (row :: rows)
      = lineTotals before [] row :: rowTotals (before ++ row) rows := by
  rw [rowTotals, List.mapIdx_cons, rowTotals]
  simp only [List.take_zero, List.flatten_nil, List.append_nil, List.take_succ_cons,
    List.flatten_cons, List.append_assoc]

/-- A line by itself: its columns start from zero. -/
theorem decodeLine_start_eq_ok_iff {line : List Segment} {next : Totals} (start : Nat)
    (text : List UInt8) :
    decodeLine (.ofPieces before) 0 (pieces 44 start text) = .ok (line, next) ↔
      ∃ row, LineSpells (text.splitOn 44) row ∧
        line.map Segment.numbers = lineTotals before [] row ∧ (∀ s ∈ line, s.Fits) ∧
        next = .ofPieces (before ++ row) := by
  have h := @decodeLine_eq_ok_iff before [] 0 (pieces 44 start text) line next rfl
  rwa [List.append_nil, pieces_eq_splitOn] at h

/-- Lines stand for mappings whose numbers are their totals. -/
theorem decodeLines_eq_ok_iff {m : Mappings} :
    decodeLines (.ofPieces before) cut = .ok m ↔
      ∃ rows, List.Forall₂ (fun line row => LineSpells (line.splitOn 44) row)
          (cut.map Prod.fst) rows ∧
        m.map (·.map Segment.numbers) = rowTotals before rows ∧ m.Fits := by
  -- on the lines: the pieces of each go over to those `before` the next
  induction cut generalizing before m with
  | nil =>
    rw [decodeLines]
    constructor
    · rintro ⟨⟩
      exact ⟨[], .nil, rfl, fun line hline => (by cases hline)⟩
    · rintro ⟨rows, hrows, hm, -⟩
      cases hrows
      rw [List.map_eq_nil_iff.1 hm]
  | cons head cut ih =>
    rcases head with ⟨text, stop⟩
    rw [decodeLines, List.map_cons]
    constructor
    · intro h
      rcases Except.bind_eq_ok.1 h with ⟨⟨segments, next⟩, hsegments, h⟩
      rcases Except.bind_eq_ok.1 h with ⟨lines, hlines, h⟩
      cases h
      rcases (decodeLine_start_eq_ok_iff _ text).1 hsegments with ⟨row, hrow, hnumbers, hfits, rfl⟩
      rcases ih.1 hlines with ⟨rows, hrows, hrest, hall⟩
      refine ⟨row :: rows, .cons hrow hrows, ?_, List.forall_mem_cons.2 ⟨hfits, hall⟩⟩
      rw [List.map_cons, hnumbers, hrest, rowTotals_cons]
    · rintro ⟨rows, hrows, hm, hfits⟩
      rcases List.forall₂_cons_left_iff.1 hrows with ⟨row, rest, hrow, hrest, rfl⟩
      rw [rowTotals_cons] at hm
      rcases List.map_eq_cons_iff.1 hm with ⟨segments, lines, rfl, hnumbers, hlines⟩
      rcases List.forall_mem_cons.1 hfits with ⟨hs, hall⟩
      rw [(decodeLine_start_eq_ok_iff _ text).2 ⟨row, hrow, hnumbers, hs, rfl⟩]
      simp only [Except.ok_bind]
      rw [ih.2 ⟨rest, hrest, hlines, hall⟩]
      rfl

/-! ## Texts and their bytes -/

theorem length_splitOn (c : Char) (text : List Char) :
    (text.splitOn c).length = text.count c + 1 := by
  induction text with
  | nil => rfl
  | cons d rest ih =>
    rw [List.splitOn_cons_eq_if_modifyHead, List.count_cons]
    by_cases hd : d = c
    · simp [hd, ih]
    · simp [hd, ih]

theorem lineSpells_encode {line : List Char} {row : List (List Int)} :
    LineSpells ((Utf8.encode line).splitOn 44) row ↔
      List.Forall₂ (fun piece values => Segment.Spells (Utf8.encode piece) values)
        ((line.splitOn ',').filter (· ≠ [])) row := by
  have hcomma : ','.val.toNat < 0x80 := by decide
  have hsplit := Utf8.splitOn_encode hcomma line
  have hbyte : UInt8.ofNat ','.val.toNat = 44 := rfl
  rw [hbyte] at hsplit
  rw [LineSpells, hsplit, List.filter_map, List.forall₂_map_left_iff]
  simp only [Function.comp_def, ne_eq, Utf8.encode_eq_nil]

/-- A text stands for the mappings that have its totals for numbers, as long as these fit. -/
theorem decode_eq_ok_iff {text : String} {m : Mappings} :
    decode text = .ok m ↔
      ∃ rows, Spells text rows ∧ m.map (·.map Segment.numbers) = totals rows ∧ m.Fits := by
  have hsemicolon : ';'.val.toNat < 0x80 := by decide
  have htotals : ∀ rows, rowTotals [] rows = totals rows := by
    intro rows
    simp only [rowTotals, lineTotals, totals, List.nil_append]
  have hspells : ∀ rows,
      List.Forall₂ (fun line row => LineSpells (line.splitOn 44) row)
        ((pieces 59 0 (Utf8.ofString text)).map Prod.fst) rows ↔ Spells text rows := by
    intro rows
    have hsplit := Utf8.splitOn_encode hsemicolon text.toList
    have hbyte : UInt8.ofNat ';'.val.toNat = 59 := rfl
    rw [hbyte] at hsplit
    rw [pieces_eq_splitOn, Utf8.ofString, hsplit, List.forall₂_map_left_iff]
    simp only [lineSpells_encode, Spells]
  have hzero : Totals.zero = .ofPieces [] := rfl
  rw [decode, hzero, decodeLines_eq_ok_iff]
  simp only [hspells, htotals]

end Mappings

/-! ## Totals that fit -/

namespace Segment

theorem fits_iff_numbers {s : Segment} :
    s.Fits ↔ ∀ n ∈ s.numbers, 0 ≤ n ∧ n < 0x100000000 := by
  rcases s with ⟨start, _ | ⟨source, line, col, _ | name⟩⟩
  · simp only [Fits, numbers_unmapped, List.forall_mem_cons, List.not_mem_nil, Option.mem_def,
      reduceCtorEq, false_imp_iff, implies_true, and_true]
    omega
  · simp only [Fits, Origin.Fits, numbers_unnamed, List.forall_mem_cons, List.not_mem_nil,
      Option.mem_def, Option.some.injEq, forall_eq', reduceCtorEq, false_imp_iff, implies_true,
      and_true]
    omega
  · simp only [Fits, Origin.Fits, numbers_named, List.forall_mem_cons, List.not_mem_nil,
      Option.mem_def, Option.some.injEq, forall_eq', false_imp_iff, implies_true, and_true]
    omega

/-- One, four or five numbers that are not negative are those of a segment. -/
theorem exists_numbers {values : List Int}
    (hshape : values.length = 1 ∨ values.length = 4 ∨ values.length = 5)
    (hrange : ∀ n ∈ values, 0 ≤ n) : ∃ s : Segment, s.numbers = values := by
  have hnat : values ∈ Set.range (List.map fun n : Nat => (n : Int)) := by
    rw [Set.range_list_map]
    exact fun n hn => ⟨n.toNat, Int.toNat_of_nonneg (hrange n hn)⟩
  rcases hnat with ⟨numbers, rfl⟩
  rw [List.length_map] at hshape
  match numbers, hshape with
  | [start], _ => exact ⟨⟨start, none⟩, rfl⟩
  | [start, source, line, column], _ => exact ⟨⟨start, some ⟨source, line, column, none⟩⟩, rfl⟩
  | [start, source, line, column, name], _ =>
    exact ⟨⟨start, some ⟨source, line, column, some name⟩⟩, rfl⟩
  | [], h | [_, _], h | [_, _, _], h => simp at h
  | _ :: _ :: _ :: _ :: _ :: _ :: _, h => simp at h

end Segment

namespace Mappings

variable {text : String} {rows rows' : List (List (List Int))}

/-- Every piece is as long as a segment. -/
theorem Spells.length_eq (h : Spells text rows) {row : List (List Int)} (hrow : row ∈ totals rows)
    {piece : List Int} (hpiece : piece ∈ row) :
    piece.length = 1 ∨ piece.length = 4 ∨ piece.length = 5 := by
  rcases List.mem_mapIdx.1 hrow with ⟨i, hi, rfl⟩
  rcases List.mem_mapIdx.1 hpiece with ⟨j, hj, rfl⟩
  rw [List.length_mapIdx]
  rcases exists_mem_of_forall₂ h (List.getElem_mem hi) with ⟨line, -, hline⟩
  rcases exists_mem_of_forall₂ hline (List.getElem_mem hj) with ⟨bytes, -, hbytes⟩
  exact hbytes.2

theorem inRange_iff {m : Mappings} (hm : m.map (·.map Segment.numbers) = totals rows) :
    InRange rows ↔ m.Fits := by
  rw [InRange, ← hm]
  simp only [List.forall_mem_map, Mappings.Fits, Segment.fits_iff_numbers]

theorem exists_mappings (h : Spells text rows) (hrange : InRange rows) :
    ∃ m : Mappings, m.map (·.map Segment.numbers) = totals rows := by
  have hrows : totals rows ∈ Set.range (List.map (List.map Segment.numbers)) := by
    rw [Set.range_list_map]
    intro row hrow
    rw [Set.range_list_map]
    exact fun piece hpiece => Segment.exists_numbers (h.length_eq hrow hpiece)
      fun n hn => (hrange row hrow piece hpiece n hn).1
  exact hrows

/-- A text is made of numbers in one way at most. -/
theorem Spells.unique (h : Spells text rows) (h' : Spells text rows') : rows = rows' := by
  have hpiece : Relator.RightUnique fun (piece : List Char) values =>
      Segment.Spells (Utf8.encode piece) values :=
    fun piece values values' hvalues hvalues' => hvalues.1.unique hvalues'.1
  have hline : Relator.RightUnique fun (line : List Char) row =>
      List.Forall₂ (fun piece values => Segment.Spells (Utf8.encode piece) values)
        ((line.splitOn ',').filter (· ≠ [])) row :=
    fun line row row' hrow hrow' => hpiece.forall₂ hrow hrow'
  exact hline.forall₂ h h'

/-- A text can be read, in one pass or piece by piece, if every piece between semicolons and commas
that is not empty is one, four or five numbers and all totals of these fit.  There is a line for
each semicolon and one more, and its segments have the totals for their numbers. -/
theorem decode_exact (text : String) :
    scan text = decode text ∧
      ((∃ m, decode text = .ok m) ↔ ∃ rows, Spells text rows ∧ InRange rows) ∧
      ∀ m rows, decode text = .ok m → Spells text rows →
        m.length = text.toList.count ';' + 1 ∧
          m.map (·.map Segment.numbers) = totals rows := by
  refine ⟨scan_eq_decode text, ?_, ?_⟩
  · constructor
    · rintro ⟨m, hm⟩
      rcases decode_eq_ok_iff.1 hm with ⟨rows, hspells, hnumbers, hfits⟩
      exact ⟨rows, hspells, (inRange_iff hnumbers).2 hfits⟩
    · rintro ⟨rows, hspells, hrange⟩
      rcases exists_mappings hspells hrange with ⟨m, hnumbers⟩
      exact ⟨m, decode_eq_ok_iff.2 ⟨rows, hspells, hnumbers, (inRange_iff hnumbers).1 hrange⟩⟩
  · intro m rows hm hspells
    rcases decode_eq_ok_iff.1 hm with ⟨rows', hspells', hnumbers, -⟩
    obtain rfl := hspells.unique hspells'
    have hlength : m.length = rows.length := by
      have h := congrArg List.length hnumbers
      rwa [List.length_map, totals, List.length_mapIdx] at h
    have hlines := List.Forall₂.length_eq hspells
    rw [length_splitOn] at hlines
    exact ⟨hlength.trans hlines.symm, hnumbers⟩

/-- A column that goes back, a line without segments, an empty piece, and totals that run on from
the first line to the last. -/
theorem decode_exact_threeLines :
    ∃ rows, Spells "EAAAA,D;;K,,CACCC" rows ∧ InRange rows ∧
      totals rows = [[[2, 0, 0, 0, 0], [1]], [], [[5], [6, 0, 1, 1, 1]]] := by
  have hdecode : decode "EAAAA,D;;K,,CACCC"
      = .ok [[⟨2, some ⟨0, 0, 0, some 0⟩⟩, ⟨1, none⟩], [],
          [⟨5, none⟩, ⟨6, some ⟨0, 1, 1, some 1⟩⟩]] := rfl
  rcases decode_exact "EAAAA,D;;K,,CACCC" with ⟨-, hread, hnumbers⟩
  rcases hread.1 ⟨_, hdecode⟩ with ⟨rows, hspells, hrange⟩
  exact ⟨rows, hspells, hrange, (hnumbers _ rows hdecode hspells).2.symm⟩

end Mappings

end Retrace
