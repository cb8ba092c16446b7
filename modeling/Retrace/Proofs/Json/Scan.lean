import Retrace.Json.Token
import Retrace.Proofs.Json.Numeral

/-!
# Scan — the tokens of a document that was written without blanks

* `Json.pieces`, `Json.tokens` — what the text of a value consists of;
* `Token.scanFrom_quote` — a string literal is scanned as its pieces;
* `Token.scanFrom_digits` — a number is scanned as its numeral, if no more of one follows;
* `Token.scan_compact` — the text of a value is scanned as its tokens.
-/

namespace Retrace

/-! ## What a text consists of -/

namespace Json

/-- A character that is written as its code is read as a code unit, any other as its bytes. -/
def charPieces (c : Char) : List Piece :=
  if (escapeChar c).length = 6 then [.unit c.toNat] else (String.utf8EncodeChar c).map .byte

def pieces (s : String) : List Piece := s.toList.flatMap charPieces

mutual

def tokens : Json → List Token
  | null => [.null]
  | num n => [.num (Numeral.ofNat n)]
  | str s => [.str (pieces s)]
  | arr items => .openBracket :: (itemTokens items ++ [.closeBracket])
  | obj fields => .openBrace :: (fieldTokens fields ++ [.closeBrace])

def itemTokens : List Json → List Token
  | [] => []
  | [j] => tokens j
  | j :: k :: rest => tokens j ++ .comma :: itemTokens (k :: rest)

def fieldTokens : List (String × Json) → List Token
  | [] => []
  | [(name, j)] => .str (pieces name) :: .colon :: tokens j
  | (name, j) :: f :: rest =>
    .str (pieces name) :: .colon :: (tokens j ++ .comma :: fieldTokens (f :: rest))

end

end Json

theorem Utf8.encode_append (front back : List Char) :
    Utf8.encode (front ++ back) = Utf8.encode front ++ Utf8.encode back := List.flatMap_append

theorem Utf8.encode_cons (c : Char) (rest : List Char) :
    Utf8.encode (c :: rest) = String.utf8EncodeChar c ++ Utf8.encode rest := List.flatMap_cons

namespace Token

variable {mode next : Mode} {b : UInt8}

/-! ## Single bytes -/

/-- A byte that finishes no token. -/
theorem scanFrom_quiet (h : step mode b = some ([], next)) (rest : List UInt8) :
    scanFrom mode (b :: rest) = scanFrom next rest := by
  rw [scanFrom, h]
  cases hrest : scanFrom next rest <;> simp [hrest]

/-- A byte that finishes a token. -/
theorem scanFrom_token {t : Token} (h : step mode b = some ([t], next)) (rest : List UInt8) :
    scanFrom mode (b :: rest) = (scanFrom next rest).map (t :: ·) := by
  rw [scanFrom, h]
  cases hrest : scanFrom next rest <;> simp [hrest]

/-! ## Strings -/

/-- Bytes that stand for themselves inside a string. -/
def Plain (b : UInt8) : Prop := b ≠ 34 ∧ b ≠ 92 ∧ ¬ b.toNat < 32

theorem scanFrom_plain {bytes : List UInt8} (h : ∀ b ∈ bytes, Plain b) (acc : List Piece)
    (rest : List UInt8) :
    scanFrom (.string acc) (bytes ++ rest)
      = scanFrom (.string ((bytes.map .byte).reverse ++ acc)) rest := by
  induction bytes generalizing acc with
  | nil => rfl
  | cons b bytes ih =>
    rcases h b List.mem_cons_self with ⟨hquote, hslash, hcontrol⟩
    have hstep : step (.string acc) b = some ([], .string (.byte b :: acc)) := by
      rw [step, if_neg hquote, if_neg hslash, if_neg hcontrol]
    rw [List.cons_append, scanFrom_quiet hstep, ih fun b' hb' => h b' (List.mem_cons_of_mem b hb')]
    simp

/-- An escape of one letter. -/
theorem scanFrom_escape {letter : UInt8} {e : UInt8} (h : escape? letter = some e)
    (hletter : letter ≠ 117) (acc : List Piece) (rest : List UInt8) :
    scanFrom (.string acc) (92 :: letter :: rest) = scanFrom (.string (.byte e :: acc)) rest := by
  have hslash : step (.string acc) 92 = some ([], .escape acc) := rfl
  have hstep : step (.escape acc) letter = some ([], .string (.byte e :: acc)) := by
    rw [step, if_neg hletter, h]
    rfl
  rw [scanFrom_quiet hslash, scanFrom_quiet hstep]

/-- The hexadecimal digits of a code below 32. -/
theorem hexDigit?_hexDigit {d : Nat} (h : d < 16) :
    ∃ b, String.utf8EncodeChar (Json.hexDigit d) = [b] ∧ hexDigit? b = some d := by
  have hall : ∀ d : Fin 16,
      (String.utf8EncodeChar (Json.hexDigit d)).map hexDigit? = [some d.val] := by decide
  have hd := hall ⟨d, h⟩
  cases hbytes : String.utf8EncodeChar (Json.hexDigit d) with
  | nil => simp [hbytes] at hd
  | cons b rest =>
    simp only [hbytes, List.map_cons, List.cons.injEq, List.map_eq_nil_iff] at hd
    exact ⟨b, by rw [hd.2], hd.1⟩

theorem scanFrom_unit {code : Nat} (h : code < 32) (acc : List Piece) (rest : List UInt8) :
    scanFrom (.string acc) (Utf8.encode
        ['\\', 'u', '0', '0', Json.hexDigit (code / 16), Json.hexDigit (code % 16)] ++ rest)
      = scanFrom (.string (.unit code :: acc)) rest := by
  rcases hexDigit?_hexDigit (show code / 16 < 16 by omega) with ⟨high, hhigh, hhigh?⟩
  rcases hexDigit?_hexDigit (show code % 16 < 16 by omega) with ⟨low, hlow, hlow?⟩
  have hbytes : Utf8.encode
      ['\\', 'u', '0', '0', Json.hexDigit (code / 16), Json.hexDigit (code % 16)] ++ rest
      = 92 :: 117 :: 48 :: 48 :: high :: low :: rest := by
    simp only [Utf8.encode, List.flatMap_cons, List.flatMap_nil, hhigh, hlow]
    rfl
  have hslash : step (.string acc) 92 = some ([], .escape acc) := rfl
  have hu : step (.escape acc) 117 = some ([], .unit acc 4 0) := rfl
  have hzero₁ : step (.unit acc 4 0) 48 = some ([], .unit acc 3 0) := rfl
  have hzero₂ : step (.unit acc 3 0) 48 = some ([], .unit acc 2 0) := rfl
  have hstep₁ : step (.unit acc 2 0) high = some ([], .unit acc 1 (code / 16)) := by
    simp [step, hhigh?]
  have hstep₂ : step (.unit acc 1 (code / 16)) low = some ([], .string (.unit code :: acc)) := by
    have hcode : code / 16 * 16 + code % 16 = code := by omega
    simp [step, hlow?, hcode]
  rw [hbytes, scanFrom_quiet hslash, scanFrom_quiet hu, scanFrom_quiet hzero₁,
    scanFrom_quiet hzero₂, scanFrom_quiet hstep₁, scanFrom_quiet hstep₂]

theorem plain_ofNat {n : Nat} (hlow : 32 ≤ n) (hhigh : n < 256) (hquote : n ≠ 34)
    (hslash : n ≠ 92) : Plain (UInt8.ofNat n) := by
  have hn : (UInt8.ofNat n).toNat = n := by
    rw [UInt8.toNat_ofNat']
    exact Nat.mod_eq_of_lt hhigh
  refine ⟨?_, ?_, by omega⟩
  · intro h
    rw [h] at hn
    exact hquote hn.symm
  · intro h
    rw [h] at hn
    exact hslash hn.symm

/-- A character that needs no escape stands for itself, with all of its bytes. -/
theorem plain_encodeChar {c : Char} (hquote : c ≠ '"') (hslash : c ≠ '\\')
    (hcontrol : ¬ c.toNat < 32) : ∀ b ∈ String.utf8EncodeChar c, Plain b := by
  have hquote : c.toNat ≠ 34 := fun h => hquote (by rw [← Char.ofNat_toNat c, h])
  have hslash : c.toNat ≠ 92 := fun h => hslash (by rw [← Char.ofNat_toNat c, h])
  have hval : c.val.toNat = c.toNat := rfl
  have hvalid : c.toNat < 0xD800 ∨ 0xDFFF < c.toNat ∧ c.toNat < 0x110000 := c.valid
  unfold String.utf8EncodeChar
  simp only [hval]
  intro b hb
  split at hb
  · cases List.mem_singleton.1 hb
    exact plain_ofNat (by omega) (by omega) hquote hslash
  -- a byte of a longer form has its high bit set
  · split at hb
    · simp only [List.mem_cons, List.not_mem_nil, or_false] at hb
      rcases hb with rfl | rfl <;> exact plain_ofNat (by omega) (by omega) (by omega) (by omega)
    · split at hb
      · simp only [List.mem_cons, List.not_mem_nil, or_false] at hb
        rcases hb with rfl | rfl | rfl <;>
          exact plain_ofNat (by omega) (by omega) (by omega) (by omega)
      · simp only [List.mem_cons, List.not_mem_nil, or_false] at hb
        rcases hb with rfl | rfl | rfl | rfl <;>
          exact plain_ofNat (by omega) (by omega) (by omega) (by omega)

/-- A character is scanned as its pieces, however it is written. -/
theorem scanFrom_escapeChar (c : Char) (acc : List Piece) (rest : List UInt8) :
    scanFrom (.string acc) (Utf8.encode (Json.escapeChar c) ++ rest)
      = scanFrom (.string ((Json.charPieces c).reverse ++ acc)) rest := by
  unfold Json.charPieces
  fun_cases Json.escapeChar c with
  | case1 => exact scanFrom_escape rfl (by decide) acc rest
  | case2 => exact scanFrom_escape rfl (by decide) acc rest
  | case3 => exact scanFrom_escape rfl (by decide) acc rest
  | case4 => exact scanFrom_escape rfl (by decide) acc rest
  | case5 => exact scanFrom_escape rfl (by decide) acc rest
  | case6 => exact scanFrom_escape rfl (by decide) acc rest
  | case7 => exact scanFrom_escape rfl (by decide) acc rest
  | case8 c hquote hslash _ _ _ _ _ hcontrol => exact scanFrom_unit hcontrol acc rest
  | case9 c hquote hslash _ _ _ _ _ hcontrol =>
    have hbytes : Utf8.encode [c] = String.utf8EncodeChar c := List.append_nil _
    rw [hbytes]
    exact scanFrom_plain (plain_encodeChar hquote hslash hcontrol) acc rest

theorem scanFrom_escaped (text : List Char) (acc : List Piece) (rest : List UInt8) :
    scanFrom (.string acc) (Utf8.encode (text.flatMap Json.escapeChar) ++ rest)
      = scanFrom (.string ((text.flatMap Json.charPieces).reverse ++ acc)) rest := by
  induction text generalizing acc with
  | nil => rfl
  | cons c text ih =>
    rw [List.flatMap_cons, Utf8.encode_append, List.append_assoc, scanFrom_escapeChar, ih,
      List.flatMap_cons, List.reverse_append, List.append_assoc]

/-- A string literal is scanned as its pieces. -/
theorem scanFrom_quote (s : String) (rest : List UInt8) :
    scanFrom .idle (Utf8.encode (Json.quote s) ++ rest)
      = (scanFrom .idle rest).map (.str (Json.pieces s) :: ·) := by
  have hbytes : Utf8.encode (Json.quote s) ++ rest
      = 34 :: (Utf8.encode (s.toList.flatMap Json.escapeChar) ++ 34 :: rest) := by
    rw [Json.quote, List.cons_append, Utf8.encode_cons, Utf8.encode_append, List.append_assoc,
      List.append_assoc]
    rfl
  have hbegin : step .idle 34 = some ([], .string []) := rfl
  have hend : step (.string (Json.pieces s).reverse) 34 = some ([.str (Json.pieces s)], .idle) := by
    rw [step, if_pos rfl, List.reverse_reverse]
  rw [hbytes, scanFrom_quiet hbegin, scanFrom_escaped, List.append_nil]
  exact scanFrom_token hend rest

/-! ## Numbers and words -/

/-- What follows does not go on with a number or a word. -/
def Ended (rest : List UInt8) : Prop :=
  ∀ b ∈ rest.head?, isLetter b = false ∧ isNumeral b = false

/-- A token that only ends where something else begins. -/
theorem scanFrom_finish {t : Token} (hclose : close mode = some [t])
    (hstep : ∀ b, isLetter b = false → isNumeral b = false → step mode b = finish (some t) b)
    {rest : List UInt8} (hrest : Ended rest) :
    scanFrom mode rest = (scanFrom .idle rest).map (t :: ·) := by
  cases rest with
  | nil =>
    rw [scanFrom, hclose]
    rfl
  | cons b rest =>
    rcases hrest b rfl with ⟨hletter, hnumeral⟩
    rw [scanFrom, hstep b hletter hnumeral, finish, scanFrom, step]
    rcases beginAt b with _ | ⟨tokens, next⟩
    · rfl
    · cases hnext : scanFrom next rest <;> simp [hnext]

theorem isNumeral_digitByte {d : Nat} (h : d < 10) :
    isNumeral (Numeral.digitByte d) = true ∧ isLetter (Numeral.digitByte d) = false ∧
      isBlank (Numeral.digitByte d) = false ∧ Numeral.digitByte d ≠ 34 := by
  have hall : ∀ d : Fin 10,
      isNumeral (Numeral.digitByte d) = true ∧ isLetter (Numeral.digitByte d) = false ∧
        isBlank (Numeral.digitByte d) = false ∧ Numeral.digitByte d ≠ 34 := by decide
  exact hall ⟨d, h⟩

theorem scanFrom_numeral {ds : List Nat} (h : ∀ d ∈ ds, d < 10) (acc rest : List UInt8) :
    scanFrom (.numeral acc) (ds.map Numeral.digitByte ++ rest)
      = scanFrom (.numeral ((ds.map Numeral.digitByte).reverse ++ acc)) rest := by
  induction ds generalizing acc with
  | nil => rfl
  | cons d ds ih =>
    have hd := (isNumeral_digitByte (h d List.mem_cons_self)).1
    have hstep : step (.numeral acc) (Numeral.digitByte d)
        = some ([], .numeral (Numeral.digitByte d :: acc)) := by
      rw [step, if_pos hd]
    rw [List.map_cons, List.cons_append, scanFrom_quiet hstep,
      ih fun e he => h e (List.mem_cons_of_mem d he)]
    simp

/-- A number is scanned as its numeral. -/
theorem scanFrom_digits (n : Nat) {rest : List UInt8} (hrest : Ended rest) :
    scanFrom .idle (Utf8.encode (Json.digits n) ++ rest)
      = (scanFrom .idle rest).map (.num (Numeral.ofNat n) :: ·) := by
  rcases Numeral.decimal_eq_cons n with ⟨d, ds, hds, -⟩
  have hlt : ∀ e ∈ d :: ds, e < 10 := fun e he => Numeral.lt_of_mem_decimal (hds ▸ he)
  rcases isNumeral_digitByte (hlt d List.mem_cons_self) with ⟨hnumeral, hletter, hblank, hquote⟩
  have hbegin : step .idle (Numeral.digitByte d) = some ([], .numeral [Numeral.digitByte d]) := by
    rw [step, beginAt, hblank, hletter, hnumeral, if_neg hquote]
    rfl
  have hbytes : ((ds.map Numeral.digitByte).reverse ++ [Numeral.digitByte d]).reverse
      = Utf8.encode (Json.digits n) := by
    rw [Numeral.encode_digits, hds]
    simp
  have hnum : Numeral.ofBytes? ((ds.map Numeral.digitByte).reverse ++ [Numeral.digitByte d]).reverse
      = some (Numeral.ofNat n) := by
    rw [hbytes, Numeral.ofBytes?_digits]
  -- the first digit begins the numeral, the others go on with it
  rw [Numeral.encode_digits, hds, List.map_cons, List.cons_append, scanFrom_quiet hbegin,
    scanFrom_numeral fun e he => hlt e (List.mem_cons_of_mem d he)]
  refine scanFrom_finish ?_ ?_ hrest
  · rw [close, hnum]
    rfl
  · intro b _ hb
    rw [step, hb, hnum]
    rfl

theorem scanFrom_null {rest : List UInt8} (hrest : Ended rest) :
    scanFrom .idle (Utf8.encode ['n', 'u', 'l', 'l'] ++ rest)
      = (scanFrom .idle rest).map (.null :: ·) := by
  have h₁ : step .idle 110 = some ([], .word [110]) := rfl
  have h₂ : step (.word [110]) 117 = some ([], .word [117, 110]) := rfl
  have h₃ : step (.word [117, 110]) 108 = some ([], .word [108, 117, 110]) := rfl
  have h₄ : step (.word [108, 117, 110]) 108 = some ([], .word [108, 108, 117, 110]) := rfl
  have hbytes : Utf8.encode ['n', 'u', 'l', 'l'] ++ rest = 110 :: 117 :: 108 :: 108 :: rest := rfl
  rw [hbytes, scanFrom_quiet h₁, scanFrom_quiet h₂, scanFrom_quiet h₃, scanFrom_quiet h₄]
  refine scanFrom_finish rfl ?_ hrest
  intro b hb _
  rw [step, hb]
  rfl

/-! ## Values -/

/-- A punctuation mark is a token by itself, and nothing goes on over it. -/
theorem scanFrom_mark {t : Token} {b : UInt8} (hstep : step .idle b = some ([t], .idle))
    (rest : List UInt8) : scanFrom .idle (b :: rest) = (scanFrom .idle rest).map (t :: ·) :=
  scanFrom_token hstep rest

theorem ended_cons {b : UInt8} (hletter : isLetter b = false) (hnumeral : isNumeral b = false)
    (rest : List UInt8) : Ended (b :: rest) := by
  intro b' hb
  cases hb
  exact ⟨hletter, hnumeral⟩

mutual

/-- The text of a value is scanned as its tokens, if nothing that follows goes on with it. -/
theorem scanFrom_compactChars : (j : Json) → {rest : List UInt8} → Ended rest →
    scanFrom .idle (Utf8.encode j.compactChars ++ rest)
      = (scanFrom .idle rest).map (j.tokens ++ ·)
  | .null, rest, hrest => scanFrom_null hrest
  -- only a numeral or a word depends on what follows it
  | .num n, rest, hrest => scanFrom_digits n hrest
  | .str s, rest, _ => scanFrom_quote s rest
  | .arr items, rest, hrest => by
    have hbytes : Utf8.encode (Json.compactChars (.arr items)) ++ rest
        = 91 :: (Utf8.encode (Json.compactItems items) ++ 93 :: rest) := by
      rw [Json.compactChars, List.cons_append, Utf8.encode_cons, Utf8.encode_append,
        List.append_assoc, List.append_assoc]
      rfl
    rw [hbytes, scanFrom_mark (t := .openBracket) rfl,
      scanFrom_compactItems items (ended_cons rfl rfl _), scanFrom_mark (t := .closeBracket) rfl,
      Json.tokens]
    cases scanFrom .idle rest <;> simp
  | .obj fields, rest, hrest => by
    have hbytes : Utf8.encode (Json.compactChars (.obj fields)) ++ rest
        = 123 :: (Utf8.encode (Json.compactFields fields) ++ 125 :: rest) := by
      rw [Json.compactChars, List.cons_append, Utf8.encode_cons, Utf8.encode_append,
        List.append_assoc, List.append_assoc]
      rfl
    rw [hbytes, scanFrom_mark (t := .openBrace) rfl,
      scanFrom_compactFields fields (ended_cons rfl rfl _), scanFrom_mark (t := .closeBrace) rfl,
      Json.tokens]
    cases scanFrom .idle rest <;> simp

theorem scanFrom_compactItems : (items : List Json) → {rest : List UInt8} → Ended rest →
    scanFrom .idle (Utf8.encode (Json.compactItems items) ++ rest)
      = (scanFrom .idle rest).map (Json.itemTokens items ++ ·)
  | [], rest, _ => by
    have hbytes : Utf8.encode [] ++ rest = rest := rfl
    rw [Json.compactItems, Json.itemTokens, hbytes]
    cases scanFrom .idle rest <;> rfl
  | [j], rest, hrest => scanFrom_compactChars j hrest
  | j :: k :: items, rest, hrest => by
    -- the comma ends the item, whatever it is
    have hbytes : Utf8.encode (Json.compactItems (j :: k :: items)) ++ rest
        = Utf8.encode j.compactChars
          ++ (44 :: (Utf8.encode (Json.compactItems (k :: items)) ++ rest)) := by
      rw [Json.compactItems, Utf8.encode_append, Utf8.encode_cons, List.append_assoc,
        List.append_assoc]
      rfl
    rw [hbytes, scanFrom_compactChars j (ended_cons rfl rfl _), scanFrom_mark (t := .comma) rfl,
      scanFrom_compactItems (k :: items) hrest, Json.itemTokens]
    cases scanFrom .idle rest <;> simp

theorem scanFrom_compactFields : (fields : List (String × Json)) → {rest : List UInt8} →
    Ended rest →
    scanFrom .idle (Utf8.encode (Json.compactFields fields) ++ rest)
      = (scanFrom .idle rest).map (Json.fieldTokens fields ++ ·)
  | [], rest, _ => by
    have hbytes : Utf8.encode [] ++ rest = rest := rfl
    rw [Json.compactFields, Json.fieldTokens, hbytes]
    cases scanFrom .idle rest <;> rfl
  | [(name, j)], rest, hrest => by
    have hbytes : Utf8.encode (Json.compactFields [(name, j)]) ++ rest
        = Utf8.encode (Json.quote name) ++ (58 :: (Utf8.encode j.compactChars ++ rest)) := by
      rw [Json.compactFields, Utf8.encode_append, Utf8.encode_cons, List.append_assoc,
        List.append_assoc]
      rfl
    rw [hbytes, scanFrom_quote, scanFrom_mark (t := .colon) rfl, scanFrom_compactChars j hrest,
      Json.fieldTokens]
    cases scanFrom .idle rest <;> simp
  | (name, j) :: f :: fields, rest, hrest => by
    -- the colon ends the name, and the comma the value
    have hbytes : Utf8.encode (Json.compactFields ((name, j) :: f :: fields)) ++ rest
        = Utf8.encode (Json.quote name) ++ (58 :: (Utf8.encode j.compactChars
          ++ (44 :: (Utf8.encode (Json.compactFields (f :: fields)) ++ rest)))) := by
      rw [Json.compactFields]
      simp only [Utf8.encode_append, Utf8.encode_cons, List.append_assoc]
      rfl
    rw [hbytes, scanFrom_quote, scanFrom_mark (t := .colon) rfl,
      scanFrom_compactChars j (ended_cons rfl rfl _), scanFrom_mark (t := .comma) rfl,
      scanFrom_compactFields (f :: fields) hrest, Json.fieldTokens]
    cases scanFrom .idle rest <;> simp

end

/-- The text of a value is scanned as its tokens. -/
theorem scan_compact (j : Json) : scan (Utf8.ofString j.compact) = some j.tokens := by
  have hended : Ended [] := fun b hb => by cases hb
  have hscan := scanFrom_compactChars j hended
  rw [List.append_nil] at hscan
  rw [scan, Utf8.ofString, Json.compact, String.toList_ofList, hscan, scanFrom, close,
    Option.map_some, List.append_nil]

end Token

end Retrace
