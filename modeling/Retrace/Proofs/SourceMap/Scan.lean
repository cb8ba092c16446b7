import Retrace.Proofs.Result
import Retrace.SourceMap.Mappings

/-!
# Scan — mappings read in one pass and piece by piece

The one pass bounds a number by the end of its line only.  A number never runs over a comma, as no
separator is a digit.

* `Vlq.readFrom_append` — a number is read alike if what comes after it is no digit;
* `Segment.scanFields_append` — the cursor stops where the piece ends;
* `Mappings.scan_eq_decode` — both readings give the same mappings and the same errors.
-/

namespace Retrace

/-! ## Numbers -/

namespace Vlq

open Base64 (digit?)

variable {i folded : Nat} {bytes rest : List UInt8} {v : Int}

/-- What is left after a number is the end of what was there. -/
theorem suffix_of_readFrom (h : readFrom i folded bytes = .ok (v, rest)) : rest <:+ bytes := by
  fun_induction readFrom i folded bytes with
  | case1 => cases h
  | case2 => cases h
  | case3 => cases h
  | case4 =>
    cases h
    exact List.suffix_cons _ _
  | case5 i folded b bytes d hd hi folded' hlast ih =>
    exact (ih h).trans (List.suffix_cons _ _)

theorem suffix_of_read (h : read bytes = .ok (v, rest)) : rest <:+ bytes := suffix_of_readFrom h

/-- Bytes that do not begin with a digit. -/
def Bounded (tail : List UInt8) : Prop := ∀ b ∈ tail.head?, digit? b = none

theorem readFrom_append {tail : List UInt8} (htail : Bounded tail) (i folded : Nat)
    (piece : List UInt8) :
    readFrom i folded (piece ++ tail)
      = (readFrom i folded piece).map fun (v, rest) => (v, rest ++ tail) := by
  induction piece generalizing i folded with
  | nil =>
    cases tail with
    | nil => rfl
    | cons b rest =>
      have hb := htail b rfl
      simp only [List.nil_append, readFrom, hb]
      rfl
  | cons b rest ih =>
    rw [List.cons_append, readFrom, readFrom]
    cases digit? b with
    | none => rfl
    | some d =>
      simp only [ih]
      by_cases hi : 12 < i
      · rw [if_pos hi, if_pos hi]
        rfl
      · rw [if_neg hi, if_neg hi]
        by_cases hd : d < 32
        · rw [if_pos hd, if_pos hd]
          rfl
        · rw [if_neg hd, if_neg hd]

theorem read_append {tail : List UInt8} (htail : Bounded tail) (piece : List UInt8) :
    read (piece ++ tail) = (read piece).map fun (v, rest) => (v, rest ++ tail) :=
  readFrom_append htail 0 0 piece

end Vlq

/-! ## Pieces -/

namespace Segment

theorem scanFields_tail {tail : List UInt8} (htail : ∀ b ∈ tail.head?, b = 44) (pos room : Nat) :
    scanFields pos room tail = .ok ([], pos, tail) := by
  cases tail with
  | nil =>
    unfold scanFields
    rfl
  | cons b rest =>
    unfold scanFields
    rw [if_pos (htail b rfl)]

/-- The cursor reads the numbers of a piece and stops at its end. -/
theorem scanFields_append {piece tail : List UInt8} (hpiece : 44 ∉ piece)
    (htail : ∀ b ∈ tail.head?, b = 44) (pos room : Nat) :
    scanFields pos room (piece ++ tail)
      = (readFields (pos + piece.length) room piece).map fun values =>
          (values, pos + piece.length, tail) := by
  have hbounded : Vlq.Bounded tail := fun b hb => htail b hb ▸ rfl
  -- on the room, which goes down with every number
  induction room generalizing piece pos with
  | zero =>
    cases piece with
    | nil => exact scanFields_tail htail pos 0
    | cons b rest =>
      have hb : ¬ b = 44 := fun hb => hpiece (hb ▸ List.mem_cons_self)
      rw [List.cons_append, scanFields, if_neg hb, readFields, Nat.add_sub_cancel]
      rfl
  | succ room ih =>
    cases piece with
    | nil => exact scanFields_tail htail pos (room + 1)
    | cons b rest =>
      have hb : ¬ b = 44 := fun hb => hpiece (hb ▸ List.mem_cons_self)
      rw [List.cons_append, scanFields, if_neg hb, readFields, ← List.cons_append,
        Vlq.read_append hbounded]
      cases hread : Vlq.read (b :: rest) with
      | error at? =>
        simp only [Except.map, Nat.add_sub_cancel]
      | ok number =>
        rcases number with ⟨v, left⟩
        have hleft := Vlq.suffix_of_read hread
        have hmore : 44 ∉ left := fun hmem => hpiece (hleft.subset hmem)
        -- the number takes what is missing from the piece afterwards
        have hstop : pos + ((b :: rest ++ tail).length - (left ++ tail).length) + left.length
            = pos + (b :: rest).length := by
          have hle := hleft.length_le
          rw [List.length_append, List.length_append]
          omega
        simp only [Except.map]
        rw [ih hmore, hstop]
        cases readFields (pos + (b :: rest).length) room left <;> rfl

end Segment

namespace Mappings

theorem pieces_of_not_mem {separator : UInt8} {piece : List UInt8} (hpiece : separator ∉ piece)
    (pos : Nat) : pieces separator pos piece = [(piece, pos + piece.length)] := by
  induction piece generalizing pos with
  | nil => rfl
  | cons b rest ih =>
    rw [List.mem_cons, not_or] at hpiece
    rw [pieces, if_neg fun hb => hpiece.1 hb.symm, ih hpiece.2, List.length_cons,
      Nat.add_right_comm, Nat.add_assoc]

theorem pieces_append {separator : UInt8} {piece : List UInt8} (hpiece : separator ∉ piece)
    (pos : Nat) (rest : List UInt8) :
    pieces separator pos (piece ++ separator :: rest)
      = (piece, pos + piece.length) :: pieces separator (pos + piece.length + 1) rest := by
  induction piece generalizing pos with
  | nil =>
    rw [List.nil_append, pieces, if_pos rfl]
    rfl
  | cons b piece ih =>
    rw [List.mem_cons, not_or] at hpiece
    rw [List.cons_append, pieces, if_neg fun hb => hpiece.1 hb.symm, ih hpiece.2, List.length_cons,
      Nat.add_right_comm, Nat.add_assoc]

/-- Bytes begin with the piece up to their first separator. -/
theorem exists_piece (separator : UInt8) (pos : Nat) (bytes : List UInt8) :
    ∃ piece tail cut, bytes = piece ++ tail ∧ separator ∉ piece ∧
      (∀ b ∈ tail.head?, b = separator) ∧
      pieces separator pos bytes = (piece, pos + piece.length) :: cut ∧
      pieces separator (pos + piece.length) tail = ([], pos + piece.length) :: cut := by
  by_cases hmem : separator ∈ bytes
  · rcases List.eq_append_cons_of_mem hmem with ⟨piece, rest, rfl, hpiece⟩
    refine ⟨piece, separator :: rest, _, rfl, hpiece, fun b hb => ?_,
      pieces_append hpiece pos rest, by rw [pieces, if_pos rfl]⟩
    cases hb
    rfl
  · exact ⟨bytes, [], [], (List.append_nil bytes).symm, hmem,
      fun b hb => (by cases hb), pieces_of_not_mem hmem pos, rfl⟩

theorem takeWhile_append {separator : UInt8} {piece tail : List UInt8} (hpiece : separator ∉ piece)
    (htail : ∀ b ∈ tail.head?, b = separator) :
    (piece ++ tail).takeWhile (fun b => decide (b ≠ separator)) = piece := by
  have hall : ∀ b ∈ piece, decide (b ≠ separator) = true :=
    fun b hb => decide_eq_true fun heq => hpiece (heq ▸ hb)
  rw [List.takeWhile_append_of_pos hall]
  cases tail with
  | nil => exact List.append_nil piece
  | cons b rest =>
    obtain rfl := htail b rfl
    rw [List.takeWhile_cons_of_neg (by simp), List.append_nil]

/-- Where the cursor is not at a comma, the piece from there on stands for a segment. -/
theorem decodeLine_pieces {b : UInt8} (hb : ¬ b = 44) (t : Totals) (column pos : Nat)
    (rest : List UInt8) :
    decodeLine t column (pieces 44 pos (b :: rest))
      = (do
          let (fields, stop, more) ← Segment.scanFields pos 5 (b :: rest)
          let (segment, next) ← Segment.ofFields t column stop fields
          let (segments, last) ← decodeLine next segment.column (pieces 44 stop more)
          pure (segment :: segments, last)) := by
  rcases exists_piece 44 pos (b :: rest) with ⟨piece, tail, cut, hline, hpiece, htail, hcut, hrest⟩
  have hne : piece ≠ [] := by
    rintro rfl
    rw [List.nil_append] at hline
    exact hb (htail b (hline ▸ rfl))
  rw [hcut, decodeLine, hline, Segment.scanFields_append hpiece htail]
  · cases Segment.readFields (pos + piece.length) 5 piece with
    | error e => rfl
    | ok fields =>
      -- the empty piece before the comma is passed over
      simp only [Except.map, Except.ok_bind, hrest, decodeLine]
  · exact hne

theorem scanLine_eq_decodeLine (t : Totals) (column pos : Nat) (line : List UInt8) :
    scanLine t column pos line = decodeLine t column (pieces 44 pos line) := by
  fun_induction scanLine t column pos line with
  | case1 => rfl
  | case2 t column pos rest ih => rw [ih, pieces, if_pos rfl, decodeLine]
  | case3 t column pos b rest hb e hscan =>
    rw [decodeLine_pieces hb, hscan]
    rfl
  | case4 t column pos b rest hb fields stop more hscan ih =>
    rw [decodeLine_pieces hb, hscan]
    simp only [Except.ok_bind, ih]

theorem scanLines_eq_decodeLines (t : Totals) (pos : Nat) (bytes : List UInt8) :
    scanLines t pos bytes = decodeLines t (pieces 59 pos bytes) := by
  fun_induction scanLines t pos bytes with
  | case1 t pos bytes line ih =>
    rcases exists_piece 59 pos bytes with ⟨piece, tail, cut, hbytes, hpiece, htail, hcut, hrest⟩
    -- the line that the pass finds is the first piece between semicolons
    have hline : line = piece := by
      rw [← takeWhile_append hpiece htail, ← hbytes]
    rw [hline] at ih
    rw [hline, hcut, decodeLines, scanLine_eq_decodeLine, Nat.add_sub_cancel]
    cases decodeLine t 0 (pieces 44 pos piece) with
    | error e => rfl
    | ok read =>
      rcases read with ⟨segments, next⟩
      simp only [Except.ok_bind]
      cases tail with
      | nil =>
        cases hrest
        rw [if_neg (by simp [hbytes])]
        rfl
      | cons b rest =>
        obtain rfl := htail b rfl
        have hlt : piece.length < bytes.length := by simp [hbytes]
        have hdrop : bytes.drop (piece.length + 1) = rest := by simp [hbytes, List.drop_append]
        rw [if_pos hlt, ih next hlt, hdrop]
        rw [pieces, if_pos rfl] at hrest
        cases hrest
        rfl

/-- Both ways to read a text give the same mappings, or fail with the same error. -/
theorem scan_eq_decode (text : String) : scan text = decode text :=
  scanLines_eq_decodeLines Totals.zero 0 (Utf8.ofString text)

end Mappings

end Retrace
