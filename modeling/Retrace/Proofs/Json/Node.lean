import Retrace.Json.Node
import Retrace.Proofs.Json.Scan
import Retrace.Proofs.Text.Utf8

/-!
# Node — reading back what was written

* `Json.node` — the document that the text of a value is read as;
* `Node.build_tokens` — the tokens of a value build its document;
* `Node.ofBytes?_compact` — so does its text;
* `Node.text?_pieces`, `Node.nat?_node`, `Node.list?_node` — strings, numbers and arrays are read
  back as they were;
* `Node.record?_node` — so are the fields of a record, each by its name.
-/

namespace Retrace

namespace Json

mutual

/-- The document of a value, with strings and numbers as they are written. -/
def node : Json → Node
  | null => .null
  | num n => .num (Numeral.ofNat n)
  | str s => .str (pieces s)
  | arr items => .arr (itemNodes items)
  | obj fields => .obj (fieldNodes fields)

def itemNodes : List Json → List Node
  | [] => []
  | j :: rest => node j :: itemNodes rest

def fieldNodes : List (String × Json) → List (List Piece × Node)
  | [] => []
  | (name, j) :: rest => (pieces name, node j) :: fieldNodes rest

end

theorem itemNodes_eq_map (items : List Json) : itemNodes items = items.map node := by
  induction items with
  | nil => rfl
  | cons j rest ih => rw [itemNodes, ih, List.map_cons]

theorem fieldNodes_eq_map (fields : List (String × Json)) :
    fieldNodes fields = fields.map fun f => (pieces f.1, f.2.node) := by
  induction fields with
  | nil => rfl
  | cons f rest ih => rw [fieldNodes, ih, List.map_cons]

theorem itemTokens_cons (j : Json) (items : List Json) :
    ∃ more, itemTokens (j :: items) = j.tokens ++ more := by
  cases items with
  | nil => exact ⟨[], (List.append_nil _).symm⟩
  | cons k rest => exact ⟨.comma :: itemTokens (k :: rest), rfl⟩

end Json

namespace Node

/-! ## Building -/

variable {s s' : State} {rest : List Token}

theorem build_cons {t : Token} (h : s.step t = some s') :
    (t :: rest).foldlM State.step s = rest.foldlM State.step s' := by
  rw [List.foldlM_cons, h]
  rfl

theorem build_append {tokens : List Token} (h : tokens.foldlM State.step s = some s') :
    (tokens ++ rest).foldlM State.step s = rest.foldlM State.step s' := by
  rw [List.foldlM_append, h]
  rfl

/-- No value begins with the bracket that would end an array. -/
theorem build_item (j : Json) (more : List Token) (stack : List Frame) :
    (j.tokens ++ more).foldlM State.step (.item stack)
      = (j.tokens ++ more).foldlM State.step (.value (.arr [] :: stack)) := by
  cases j with
  | null | num | str | arr | obj => rfl

/-- The name of a field, with its colon. -/
theorem build_name (optional : Bool) (before : List (List Piece × Node)) (name : String)
    (stack : List Frame) :
    (.str (Json.pieces name) :: .colon :: rest).foldlM State.step (.key optional before stack)
      = rest.foldlM State.step (.value (.obj before (Json.pieces name) :: stack)) := by
  have hname : State.step (.key optional before stack) (.str (Json.pieces name))
      = some (.colon before (Json.pieces name) stack) := by
    cases optional <;> rfl
  have hcolon : State.step (.colon before (Json.pieces name) stack) .colon
      = some (.value (.obj before (Json.pieces name) :: stack)) := rfl
  rw [build_cons hname, build_cons hcolon]

mutual

/-- The tokens of a value build its document. -/
theorem build_tokens : (j : Json) → (stack : List Frame) →
    j.tokens.foldlM State.step (.value stack) = some (.deliver j.node stack)
  | .null, _ => rfl
  | .num _, _ => rfl
  | .str _, _ => rfl
  | .arr [], _ => rfl
  | .arr (j :: items), stack => by
    have hopen : State.step (.value stack) .openBracket = some (.item stack) := rfl
    -- the first item is built as if an item had come before it
    have hitems : (Json.itemTokens (j :: items)).foldlM State.step (.item stack)
        = some (.moreItems (Json.itemNodes (j :: items)).reverse stack) := by
      rcases Json.itemTokens_cons j items with ⟨more, hmore⟩
      have hafter := build_items (j :: items) (List.cons_ne_nil j items) [] stack
      rw [List.append_nil] at hafter
      rw [hmore, build_item, ← hmore, hafter]
    have hclose : State.step (.moreItems (Json.itemNodes (j :: items)).reverse stack) .closeBracket
        = some (.deliver (Json.node (.arr (j :: items))) stack) := by
      rw [State.step, List.reverse_reverse]
      rfl
    rw [Json.tokens, build_cons hopen, build_append hitems, build_cons hclose]
    rfl
  | .obj [], _ => rfl
  | .obj (f :: fields), stack => by
    have hopen : State.step (.value stack) .openBrace = some (.key true [] stack) := rfl
    have hfields := build_fields true (f :: fields) (List.cons_ne_nil f fields) [] stack
    have hclose : State.step (.moreFields (Json.fieldNodes (f :: fields)).reverse stack) .closeBrace
        = some (.deliver (Json.node (.obj (f :: fields))) stack) := by
      rw [State.step, List.reverse_reverse]
      rfl
    rw [List.append_nil] at hfields
    rw [Json.tokens, build_cons hopen, build_append hfields, build_cons hclose]
    rfl

theorem build_items : (items : List Json) → items ≠ [] → (before : List Node) →
    (stack : List Frame) →
    (Json.itemTokens items).foldlM State.step (.value (.arr before :: stack))
      = some (.moreItems ((Json.itemNodes items).reverse ++ before) stack)
  | [], hne, _, _ => absurd rfl hne
  | [j], _, before, stack => build_tokens j (.arr before :: stack)
  | j :: k :: items, _, before, stack => by
    have hcomma : State.step (.deliver j.node (.arr before :: stack)) .comma
        = some (.value (.arr (j.node :: before) :: stack)) := rfl
    have hrest := build_items (k :: items) (List.cons_ne_nil k items) (j.node :: before) stack
    have hnodes : (Json.itemNodes (j :: k :: items)).reverse ++ before
        = (Json.itemNodes (k :: items)).reverse ++ (j.node :: before) := by
      rw [Json.itemNodes, List.reverse_cons, List.append_assoc]
      rfl
    rw [Json.itemTokens, build_append (build_tokens j _), build_cons hcomma, hrest, hnodes]

theorem build_fields : (optional : Bool) → (fields : List (String × Json)) → fields ≠ [] →
    (before : List (List Piece × Node)) → (stack : List Frame) →
    (Json.fieldTokens fields).foldlM State.step (.key optional before stack)
      = some (.moreFields ((Json.fieldNodes fields).reverse ++ before) stack)
  | _, [], hne, _, _ => absurd rfl hne
  | optional, [(name, j)], _, before, stack => by
    rw [Json.fieldTokens, build_name, build_tokens j]
    rfl
  | optional, (name, j) :: f :: fields, _, before, stack => by
    have hcomma : State.step (.deliver j.node (.obj before (Json.pieces name) :: stack)) .comma
        = some (.key false ((Json.pieces name, j.node) :: before) stack) := rfl
    have hrest := build_fields false (f :: fields) (List.cons_ne_nil f fields)
      ((Json.pieces name, j.node) :: before) stack
    have hnodes : (Json.fieldNodes ((name, j) :: f :: fields)).reverse ++ before
        = (Json.fieldNodes (f :: fields)).reverse ++ ((Json.pieces name, j.node) :: before) := by
      rw [Json.fieldNodes, List.reverse_cons, List.append_assoc]
      rfl
    rw [Json.fieldTokens, build_name, build_append (build_tokens j _), build_cons hcomma, hrest,
      hnodes]

end

/-- The text of a value is read as its document. -/
theorem ofBytes?_compact (j : Json) : ofBytes? (Utf8.ofString j.compact) = some j.node := by
  rw [ofBytes?, Token.scan_compact, Option.bind_some, ofTokens?, build_tokens j []]
  rfl

/-! ## Reading -/

theorem textBytes?_bytes (bytes : List UInt8) (rest : List Piece) :
    textBytes? (bytes.map .byte ++ rest) = (textBytes? rest).map (bytes ++ ·) := by
  induction bytes with
  | nil =>
    rw [List.map_nil, List.nil_append]
    cases textBytes? rest <;> rfl
  | cons b bytes ih =>
    rw [List.map_cons, List.cons_append, textBytes?, ih, Option.map_map]
    rfl

/-- A character that is written as its code is a control character. -/
theorem lt_of_length_escapeChar {c : Char} (h : (Json.escapeChar c).length = 6) :
    c.toNat < 32 := by
  revert h
  fun_cases Json.escapeChar c with
  | case1 | case2 | case3 | case4 | case5 | case6 | case7 =>
    intro h
    cases h
  | case8 c _ _ _ _ _ _ _ hcontrol => exact fun _ => hcontrol
  | case9 =>
    intro h
    cases h

theorem textBytes?_charPieces (c : Char) (rest : List Piece) :
    textBytes? (Json.charPieces c ++ rest) = (textBytes? rest).map (Utf8.encode [c] ++ ·) := by
  unfold Json.charPieces
  by_cases hlength : (Json.escapeChar c).length = 6
  · have hcontrol := lt_of_length_escapeChar hlength
    have hunit : textBytes? (.unit c.toNat :: rest)
        = (textBytes? rest).map (Utf8.encode [Char.ofNat c.toNat] ++ ·) := by
      rw [textBytes?.eq_def]
      simp only [if_neg (show ¬ (0xDC00 ≤ c.toNat ∧ c.toNat < 0xE000) by omega),
        if_neg (show ¬ (0xD800 ≤ c.toNat ∧ c.toNat < 0xDC00) by omega)]
    rw [if_pos hlength, List.singleton_append, hunit, Char.ofNat_toNat]
  · have hbytes : Utf8.encode [c] = String.utf8EncodeChar c := List.append_nil _
    rw [if_neg hlength, textBytes?_bytes, hbytes]

theorem textBytes?_pieces (text : List Char) :
    textBytes? (text.flatMap Json.charPieces) = some (Utf8.encode text) := by
  induction text with
  | nil => rfl
  | cons c text ih =>
    have hencode : Utf8.encode (c :: text) = Utf8.encode [c] ++ Utf8.encode text :=
      Utf8.encode_append [c] text
    rw [List.flatMap_cons, textBytes?_charPieces, ih, hencode]
    rfl

theorem text?_pieces (s : String) : text? (Json.pieces s) = some s := by
  rw [text?, Json.pieces, textBytes?_pieces, Option.bind_some, Utf8.decode?_encode,
    Option.map_some, String.ofList_toList]

theorem string?_node (s : String) : (Json.str s).node.string? = some s := text?_pieces s

theorem nat?_node {n bound : Nat} (h : n < bound) : (Json.num n).node.nat? bound = some n :=
  Numeral.nat?_ofNat h

variable {α : Type} {read : Node → Option α}

/-- An array is read back if each of its items is. -/
theorem list?_node {write : α → Json} {values : List α}
    (h : ∀ a ∈ values, read (write a).node = some a) :
    (Json.arr (values.map write)).node.list? read = some values := by
  rw [Json.node, Json.itemNodes_eq_map, list?]
  induction values with
  | nil => rfl
  | cons a values ih =>
    have hrest := ih fun b hb => h b (List.mem_cons_of_mem a hb)
    rw [List.map_cons, List.map_cons, List.mapM_cons, h a List.mem_cons_self, hrest]
    rfl

theorem nats?_node {numbers : List Nat} {bound : Nat} (h : ∀ n ∈ numbers, n < bound) :
    (Json.arr (numbers.map .num)).node.list? (nat? bound) = some numbers :=
  list?_node fun n hn => nat?_node (h n hn)

/-- A value that may be missing is read back if it is not written as `null`. -/
theorem option?_node {write : α → Json} {value : Option α}
    (h : ∀ a ∈ value, read (write a).node = some a ∧ (write a).node ≠ .null) :
    (Json.ofOption write value).node.option? read = some value := by
  cases value with
  | none => rfl
  | some a =>
    rcases h a rfl with ⟨hread, hnull⟩
    rw [Json.ofOption]
    unfold option?
    split
    · contradiction
    · rw [hread]
      rfl

/-! ## Records -/

theorem named?_fieldNodes (fields : List (String × Json)) :
    named? (Json.fieldNodes fields) = some (fields.map fun f => (f.1, f.2.node)) := by
  rw [named?, Json.fieldNodes_eq_map]
  induction fields with
  | nil => rfl
  | cons f rest ih =>
    rw [List.map_cons, List.mapM_cons, ih]
    simp only [text?_pieces]
    rfl

/-- A name that occurs once at most is found where the fields have it. -/
theorem filter_fst_eq {fields : List (String × Json)} (h : (fields.map Prod.fst).Nodup)
    (name : String) :
    (fields.map fun f => (f.1, f.2.node)).filter (·.1 = name)
      = ((fields.lookup name).map fun j => (name, j.node)).toList := by
  induction fields with
  | nil => rfl
  | cons f rest ih =>
    rcases List.nodup_cons.1 h with ⟨hnew, hrest⟩
    rw [List.map_cons, List.filter_cons, List.lookup_cons, ih hrest]
    by_cases hname : f.1 = name
    · -- the name does not come again
      subst hname
      have hnone : rest.lookup f.1 = none := by
        refine List.lookup_eq_none_iff.2 fun g hg => bne_iff_ne.2 fun hsame => hnew ?_
        exact List.mem_map.2 ⟨g, hg, hsame.symm⟩
      simp only [decide_true, if_true, beq_self_eq_true, hnone, Option.map_none,
        Option.toList_none, Option.map_some, Option.toList_some]
    · have hother : (name == f.1) = false := beq_eq_false_iff_ne.2 (Ne.symm hname)
      simp only [hname, decide_false, Bool.false_eq_true, if_false, hother]

/-- The fields of a record are found by their names, whatever the order in which they stand. -/
theorem record?_node {fields : List (String × Json)} (h : (fields.map Prod.fst).Nodup)
    (names : List String) :
    (Json.obj fields).node.record? names
      = some (names.map fun name => (fields.lookup name).map Json.node) := by
  rw [Json.node, record?, named?_fieldNodes]
  simp only [Option.bind_eq_bind, Option.bind_some]
  induction names with
  | nil => rfl
  | cons name names ih =>
    rw [List.mapM_cons, ih, filter_fst_eq h, List.map_cons]
    cases fields.lookup name <;> rfl

/-- A field that is left out where it has no value is read back. -/
theorem optional?_node {write : α → Json} {value : Option α}
    (h : ∀ a ∈ value, read (write a).node = some a ∧ (write a).node ≠ .null) :
    optional? (option? read) none ((value.map write).map Json.node) = some value := by
  cases value with
  | none => rfl
  | some a =>
    have hread : (Json.ofOption write (some a)).node.option? read = some (some a) := option?_node h
    exact hread

end Node

end Retrace
