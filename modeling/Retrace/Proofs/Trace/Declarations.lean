import Retrace.Proofs.Trace.Packed
import Retrace.Proofs.Trace.Wire
import Retrace.Trace.Declarations

/-!
# Declarations — every number that is handed out keeps its place

Functions and blocks of a generated file are declared one after another.  A declaration that
succeeds hands out a number, and what that number names is said here without the tables: it stands
where the resolver says, or at the declared position of the generated file.

* `Declarations.run`, `Declarations.declared` — the tables after some declarations, and what has
  been declared then;
* `Declarations.Declaring` — every way in which a declaration can go;
* `Declarations.Declares` — the tables place what was declared, and nothing else;
* `Declarations.declares_run` — they do so after any declarations, those that fail included;
* `Declarations.Declares.ofBytes_toBytes` — and the table comes back from a trace as it was.
-/

namespace Retrace

/-- Something to declare, at a position of the generated file. -/
inductive Declaration where
  | function (p : Pos)
  | block (function : Nat) (p : Pos)
deriving DecidableEq, Repr

/-- What a number that was handed out stands for. -/
structure Declared where
  function : Nat
  block : Option Nat
  source : SourcePos
deriving DecidableEq, Repr

namespace Declaration

def pos : Declaration → Pos
  | function p => p
  | block _ p => p

/-- What the number handed out for a declaration stands for. -/
def numbered (id : Nat) (source : SourcePos) : Declaration → Declared
  | function _ => ⟨id, none, source⟩
  | block f _ => ⟨f, some id, source⟩

end Declaration

namespace Declarations

def declare (resolve : Resolver) (d : Declarations) :
    Declaration → Except Error Nat × Declarations
  | .function p => d.function resolve p
  | .block f p => d.block resolve f p

/-- What a declaration adds, if it succeeds: the place that the resolver gives, or else the declared
position itself. -/
def declared? (resolve : Resolver) (d : Declarations) (c : Declaration) : Option Declared :=
  match (d.declare resolve c).1, resolve c.pos with
  | .ok id, .ok source => some (c.numbered id (source.getD ⟨d.generated, c.pos⟩))
  | _, _ => none

/-- The tables after some declarations.  The resolver may answer each of them in its own way, and
may know nothing. -/
def run (d : Declarations) (cs : List (Resolver × Declaration)) : Declarations :=
  cs.foldl (fun d c => (d.declare c.1 c.2).2) d

/-- What some declarations add. -/
def declared (d : Declarations) : List (Resolver × Declaration) → List Declared
  | [] => []
  | c :: rest => (d.declared? c.1 c.2).toList ++ (d.declare c.1 c.2).2.declared rest

end Declarations

/-! ## Looking up -/

namespace Table

/-- What a table notes for a function or one of its blocks. -/
def slot? (t : Table) (f : Nat) (b : Option Nat) : Option Location :=
  t.functions[f]?.bind fun entry => entry.locate b

theorem locate_eq (t : Table) (f : Nat) (b : Option Nat) :
    t.locate f b = ⟨f, b, (t.slot? f b).bind t.sourcePos?⟩ := rfl

theorem sourcePos?_eq_some {t : Table} {l : Location} {s : SourcePos} :
    t.sourcePos? l = some s ↔ t.paths[l.path]? = some s.path ∧ s.pos = l.pos := by
  unfold sourcePos?
  rw [Option.map_eq_some_iff]
  constructor
  · rintro ⟨path, hpath, rfl⟩
    exact ⟨hpath, rfl⟩
  · rintro ⟨hpath, hpos⟩
    exact ⟨s.path, hpath, by rw [← hpos]⟩

/-- What holds of every location holds of every slot, and the other way round. -/
theorem each_iff {P : Location → Prop} {t : Table} :
    t.Each P ↔ ∀ f b l, t.slot? f b = some l → P l := by
  constructor
  · intro h f b l hl
    rcases Option.bind_eq_some_iff.1 hl with ⟨entry, hentry, hlocate⟩
    refine h entry (List.mem_of_getElem? hentry) l ?_
    cases b with
    | none => exact List.mem_cons.2 (.inl hlocate.symm)
    | some b =>
      have hblock : entry.blocks[b]? = some (some l) := Option.join_eq_some_iff.1 hlocate
      exact List.mem_cons_of_mem _ (List.mem_of_getElem? hblock)
  · intro h entry hentry l hl
    rcases List.getElem?_of_mem hentry with ⟨f, hf⟩
    rcases List.mem_cons.1 hl with hl | hl
    · refine h f none l ?_
      rw [slot?, hf, hl]
      rfl
    · rcases List.getElem?_of_mem hl with ⟨b, hb⟩
      refine h f (some b) l ?_
      rw [slot?, hf, Option.bind_some, FunctionEntry.locate, hb]
      rfl

/-- A new function gets a slot of its own. -/
theorem slot?_append (paths : List String) (functions : List FunctionEntry) (l : Location)
    (f : Nat) (b : Option Nat) :
    slot? ⟨paths, functions ++ [⟨some l, []⟩]⟩ f b
      = if f = functions.length ∧ b = none then some l else slot? ⟨paths, functions⟩ f b := by
  simp only [slot?]
  rcases Nat.lt_trichotomy f functions.length with hf | hf | hf
  · rw [if_neg (by omega), List.getElem?_append_left hf]
  · rw [hf, List.getElem?_concat_length, List.getElem?_eq_none (Nat.le_refl _)]
    cases b with
    | none => simp [FunctionEntry.locate]
    | some b => simp [FunctionEntry.locate]
  · have hlength : (functions ++ [(⟨some l, []⟩ : FunctionEntry)]).length ≤ f := by
      rw [List.length_append, List.length_singleton]
      omega
    rw [if_neg (by omega), List.getElem?_eq_none hlength, List.getElem?_eq_none (by omega)]

/-- And so does a new block. -/
theorem slot?_set (paths : List String) (functions : List FunctionEntry) {g : Nat}
    {entry : FunctionEntry} (hentry : functions[g]? = some entry) (l : Location) (f : Nat)
    (b : Option Nat) :
    slot? ⟨paths, functions.set g { entry with blocks := entry.blocks ++ [some l] }⟩ f b
      = if f = g ∧ b = some entry.blocks.length then some l else slot? ⟨paths, functions⟩ f b := by
  simp only [slot?]
  by_cases hf : f = g
  · rcases List.getElem?_eq_some_iff.1 hentry with ⟨hlt, -⟩
    subst hf
    rw [List.getElem?_set_self hlt, hentry]
    cases b with
    -- the function itself stays where it is
    | none => simp [FunctionEntry.locate]
    | some b =>
      simp only [Option.bind_some, FunctionEntry.locate, Option.some.injEq, true_and]
      rcases Nat.lt_trichotomy b entry.blocks.length with hb | hb | hb
      · rw [if_neg (by omega), List.getElem?_append_left hb]
      · rw [if_pos hb, hb, List.getElem?_concat_length]
        rfl
      · have hlength : (entry.blocks ++ [some l]).length ≤ b := by
          rw [List.length_append, List.length_singleton]
          omega
        rw [if_neg (by omega), List.getElem?_eq_none hlength, List.getElem?_eq_none (by omega)]
  · have hne : ¬ (f = g ∧ b = some entry.blocks.length) := fun h => hf h.1
    rw [List.getElem?_set_ne (fun h => hf h.symm), if_neg hne]

end Table

/-! ## Declaring -/

namespace Declarations

variable {d : Declarations} {xs : List Declared} {resolve : Resolver} {c : Declaration}

/-- Where a position comes from, which is the generated file if the resolver does not know it. -/
def origin (resolve : Resolver) (d : Declarations) (p : Pos) : Except Error SourcePos :=
  (resolve p).map fun source => source.getD ⟨d.generated, p⟩

/-- What is listed besides when a path has to be. -/
def unlisted (d : Declarations) (path : String) : List String :=
  if path ∈ d.paths then [] else [path]

/-- A path is listed if it has to be, and its number leads to it. -/
theorem addPath_eq (d : Declarations) (path : String) :
    (d.addPath path).2 = { d with paths := d.paths ++ d.unlisted path } ∧
      (d.paths ++ d.unlisted path)[(d.addPath path).1]? = some path := by
  unfold addPath unlisted
  cases hindex : d.paths.idxOf? path with
  | some i =>
    rcases List.idxOf?_eq_some_iff.1 hindex with ⟨hlt, hget, -⟩
    have hlisted : path ∈ d.paths := hget ▸ List.getElem_mem hlt
    simp only [if_pos hlisted, List.append_nil, true_and]
    exact List.getElem?_eq_some_iff.2 ⟨hlt, hget⟩
  | none =>
    have hnew : path ∉ d.paths := List.idxOf?_eq_none_iff.1 hindex
    simp only [if_neg hnew, true_and]
    exact List.getElem?_concat_length

theorem locate_eq (resolve : Resolver) (d : Declarations) (p : Pos) :
    d.locate resolve p = (d.origin resolve p).map fun s =>
      (⟨s.pos, (d.addPath s.path).1⟩, { d with paths := d.paths ++ d.unlisted s.path }) := by
  unfold locate origin
  cases resolve p with
  | error e => rfl
  | ok source =>
    simp only [← (addPath_eq _ _).1]
    rfl

/-- The ways to declare a function or a block. -/
inductive Declaring (resolve : Resolver) (d : Declarations) :
    Declaration → Except Error Nat × Declarations → Prop where
  | manyFunctions {p : Pos} (hid : Event.maxOperand < d.functions.length) :
      Declaring resolve d (.function p) (.error (.valueTooLarge d.functions.length), d)
  | lostFunction {p : Pos} {e : Error} (hid : d.functions.length ≤ Event.maxOperand)
      (hsource : d.origin resolve p = .error e) :
      Declaring resolve d (.function p) (.error e, d)
  | function {p : Pos} {s : SourcePos} (hid : d.functions.length ≤ Event.maxOperand)
      (hsource : d.origin resolve p = .ok s) :
      Declaring resolve d (.function p)
        (.ok d.functions.length,
          ⟨d.generated, d.paths ++ d.unlisted s.path,
            d.functions ++ [⟨some ⟨s.pos, (d.addPath s.path).1⟩, []⟩]⟩)
  | lostBlock {f : Nat} {p : Pos} {e : Error} (hsource : d.origin resolve p = .error e) :
      Declaring resolve d (.block f p) (.error e, d)
  | undeclared {f : Nat} {p : Pos} {s : SourcePos} (hsource : d.origin resolve p = .ok s)
      (hentry : d.functions[f]? = none) :
      Declaring resolve d (.block f p)
        (.error (.invalidTable (.undeclaredFunction f)),
          { d with paths := d.paths ++ d.unlisted s.path })
  | manyBlocks {f : Nat} {p : Pos} {s : SourcePos} {entry : FunctionEntry}
      (hsource : d.origin resolve p = .ok s) (hentry : d.functions[f]? = some entry)
      (hid : Event.maxOperand < entry.blocks.length) :
      Declaring resolve d (.block f p)
        (.error (.valueTooLarge entry.blocks.length),
          { d with paths := d.paths ++ d.unlisted s.path })
  | block {f : Nat} {p : Pos} {s : SourcePos} {entry : FunctionEntry}
      (hsource : d.origin resolve p = .ok s) (hentry : d.functions[f]? = some entry)
      (hid : entry.blocks.length ≤ Event.maxOperand) :
      Declaring resolve d (.block f p)
        (.ok entry.blocks.length,
          ⟨d.generated, d.paths ++ d.unlisted s.path,
            d.functions.set f
              { entry with blocks := entry.blocks ++ [some ⟨s.pos, (d.addPath s.path).1⟩] }⟩)

/-- A declaration goes in one of these ways only. -/
theorem Declaring.eq {out : Except Error Nat × Declarations} (h : Declaring resolve d c out) :
    d.declare resolve c = out := by
  cases h with
  | manyFunctions hid => simp only [declare, Declarations.function, Event.checkOperand_error hid]
  | lostFunction hid hsource =>
    simp only [declare, Declarations.function, Event.checkOperand_ok hid, locate_eq, hsource,
      Except.map]
  | function hid hsource =>
    simp only [declare, Declarations.function, Event.checkOperand_ok hid, locate_eq, hsource,
      Except.map]
  | lostBlock hsource => simp only [declare, Declarations.block, locate_eq, hsource, Except.map]
  | undeclared hsource hentry =>
    simp only [declare, Declarations.block, locate_eq, hsource, Except.map, hentry]
  | manyBlocks hsource hentry hid =>
    simp only [declare, Declarations.block, locate_eq, hsource, Except.map, hentry,
      Event.checkOperand_error hid]
  | block hsource hentry hid =>
    simp only [declare, Declarations.block, locate_eq, hsource, Except.map, hentry,
      Event.checkOperand_ok hid]

theorem exists_declaring (resolve : Resolver) (d : Declarations) (c : Declaration) :
    ∃ out, Declaring resolve d c out := by
  cases c with
  | function p =>
    by_cases hid : Event.maxOperand < d.functions.length
    · exact ⟨_, .manyFunctions hid⟩
    · have hid : d.functions.length ≤ Event.maxOperand := Nat.not_lt.1 hid
      cases hsource : d.origin resolve p with
      | error e => exact ⟨_, .lostFunction hid hsource⟩
      | ok s => exact ⟨_, .function hid hsource⟩
  | block f p =>
    cases hsource : d.origin resolve p with
    | error e => exact ⟨_, .lostBlock hsource⟩
    | ok s =>
      cases hentry : d.functions[f]? with
      | none => exact ⟨_, .undeclared hsource hentry⟩
      | some entry =>
        by_cases hid : Event.maxOperand < entry.blocks.length
        · exact ⟨_, .manyBlocks hsource hentry hid⟩
        · exact ⟨_, .block hsource hentry (Nat.not_lt.1 hid)⟩

/-- And it does go in one of them. -/
theorem declaring (resolve : Resolver) (d : Declarations) (c : Declaration) :
    Declaring resolve d c (d.declare resolve c) := by
  rcases exists_declaring resolve d c with ⟨out, h⟩
  rw [h.eq]
  exact h

/-! ## What the tables place -/

/-- The tables place what was declared, and nothing else, in paths that they list once. -/
structure Declares (d : Declarations) (xs : List Declared) : Prop where
  distinct : d.paths.Nodup
  valid : d.table.Valid
  source : ∀ f b s, (d.table.locate f b).source = some s ↔ ⟨f, b, s⟩ ∈ xs

theorem declares_start (generated : String) : (start generated).Declares [] := by
  refine ⟨List.nodup_nil, ?_, ?_⟩
  · intro f hf
    cases hf
  · intro f b s
    constructor
    · intro h
      cases h
    · intro h
      cases h

/-- No path is listed twice. -/
theorem nodup_append_unlisted (h : d.paths.Nodup) (path : String) :
    (d.paths ++ d.unlisted path).Nodup := by
  unfold unlisted
  by_cases hlisted : path ∈ d.paths
  · rw [if_pos hlisted, List.append_nil]
    exact h
  · rw [if_neg hlisted]
    refine List.nodup_append.2 ⟨h, List.pairwise_singleton _ path, ?_⟩
    rintro other hother _ hpath rfl
    cases List.mem_singleton.1 hpath
    exact hlisted hother

/-- Locations mean the same once more paths are listed. -/
theorem Declares.append_paths (h : d.Declares xs) {more : List String}
    (hdistinct : (d.paths ++ more).Nodup) :
    ({ d with paths := d.paths ++ more } : Declarations).Declares xs := by
  have hslot : ∀ f b, ({ d with paths := d.paths ++ more } : Declarations).table.slot? f b
      = d.table.slot? f b := fun f b => rfl
  have hvalid := Table.each_iff.1 h.valid
  refine ⟨hdistinct, Table.each_iff.2 ?_, ?_⟩
  · intro f b l hl
    have hlt : l.path < d.paths.length := hvalid f b l hl
    change l.path < (d.paths ++ more).length
    rw [List.length_append]
    omega
  · intro f b s
    rw [← h.source, Table.locate_eq, Table.locate_eq, hslot]
    cases hl : d.table.slot? f b with
    | none => rfl
    | some l =>
      have hlt : l.path < d.paths.length := hvalid f b l hl
      have hpath : (d.paths ++ more)[l.path]? = d.paths[l.path]? := List.getElem?_append_left hlt
      change ((d.paths ++ more)[l.path]?.map _) = some s ↔ (d.paths[l.path]?.map _) = some s
      rw [hpath]

/-- A free slot is filled. -/
theorem Declares.fill (h : d.Declares xs) {functions : List FunctionEntry} {g : Nat}
    {c : Option Nat} {l : Location} {source : SourcePos} (hfree : d.table.slot? g c = none)
    (hslot : ∀ f b, Table.slot? ⟨d.paths, functions⟩ f b
      = if f = g ∧ b = c then some l else d.table.slot? f b)
    (hl : d.table.sourcePos? l = some source) :
    ({ d with functions := functions } : Declarations).Declares (xs ++ [⟨g, c, source⟩]) := by
  refine ⟨h.distinct, Table.each_iff.2 ?_, ?_⟩
  · intro f b l' hl'
    rw [table, hslot] at hl'
    by_cases hnew : f = g ∧ b = c
    · rw [if_pos hnew] at hl'
      cases hl'
      rcases List.getElem?_eq_some_iff.1 (Table.sourcePos?_eq_some.1 hl).1 with ⟨hlt, -⟩
      exact hlt
    · rw [if_neg hnew] at hl'
      exact Table.each_iff.1 h.valid f b l' hl'
  -- the new slot has what it was filled with, and every other one what it had
  · intro f b s
    have hlocate : (({ d with functions := functions } : Declarations).table.locate f b).source
        = (if f = g ∧ b = c then some l else d.table.slot? f b).bind d.table.sourcePos? := by
      rw [← hslot]
      rfl
    rw [hlocate, List.mem_append, List.mem_singleton]
    by_cases hnew : f = g ∧ b = c
    · rcases hnew with ⟨rfl, rfl⟩
      rw [if_pos ⟨rfl, rfl⟩, Option.bind_some, hl]
      constructor
      · rintro ⟨rfl⟩
        exact .inr rfl
      · rintro (hmem | heq)
        · -- nothing was declared there before
          have hsource := (h.source f b s).2 hmem
          rw [Table.locate_eq, hfree] at hsource
          cases hsource
        · cases heq
          rfl
    · have hsource : (d.table.slot? f b).bind d.table.sourcePos? = some s ↔ ⟨f, b, s⟩ ∈ xs :=
        h.source f b s
      rw [if_neg hnew, hsource]
      constructor
      · exact .inl
      · rintro (hmem | heq)
        · exact hmem
        · cases heq
          exact absurd ⟨rfl, rfl⟩ hnew

/-- What a declaration adds when it is given a number. -/
theorem declared?_ok {c : Declaration} {id : Nat} {d' : Declarations} {s : SourcePos}
    (hok : d.declare resolve c = (.ok id, d')) (hsource : d.origin resolve c.pos = .ok s) :
    d.declared? resolve c = some (c.numbered id s) := by
  rw [declared?, hok]
  unfold origin at hsource
  cases hresolve : resolve c.pos with
  | error e =>
    rw [hresolve] at hsource
    cases hsource
  | ok source =>
    rw [hresolve] at hsource
    cases hsource
    rfl

/-- A declaration that is refused adds nothing. -/
theorem declared?_error {c : Declaration} {e : Error}
    (herror : (d.declare resolve c).1 = .error e) : d.declared? resolve c = none := by
  rw [declared?, herror]

/-- One more declaration adds what it declares. -/
theorem Declares.declare (h : d.Declares xs) (resolve : Resolver) (c : Declaration) :
    (d.declare resolve c).2.Declares (xs ++ (d.declared? resolve c).toList) := by
  have hc := declaring resolve d c
  rcases hout : d.declare resolve c with ⟨answer, d'⟩
  rw [hout] at hc
  cases answer with
  | error e =>
    rw [declared?_error (congrArg Prod.fst hout), Option.toList_none, List.append_nil]
    cases hc with
    | manyFunctions | lostFunction | lostBlock => exact h
    -- the path stays listed
    | undeclared | manyBlocks => exact h.append_paths (nodup_append_unlisted h.distinct _)
  | ok id =>
    cases hc with
    | function hid hsource =>
      rw [declared?_ok hout hsource]
      refine (h.append_paths (nodup_append_unlisted h.distinct _)).fill ?_
        (Table.slot?_append _ _ _) (Table.sourcePos?_eq_some.2 ⟨(d.addPath_eq _).2, rfl⟩)
      simp only [Table.slot?, table, List.getElem?_eq_none (Nat.le_refl _), Option.bind_none]
    | block hsource hentry hid =>
      rw [declared?_ok hout hsource]
      refine (h.append_paths (nodup_append_unlisted h.distinct _)).fill ?_
        (Table.slot?_set _ _ hentry _) (Table.sourcePos?_eq_some.2 ⟨(d.addPath_eq _).2, rfl⟩)
      simp only [Table.slot?, table, hentry, Option.bind_some, FunctionEntry.locate,
        List.getElem?_eq_none (Nat.le_refl _), Option.join_none]

theorem Declares.run (h : d.Declares xs) (cs : List (Resolver × Declaration)) :
    (d.run cs).Declares (xs ++ d.declared cs) := by
  induction cs generalizing d xs with
  | nil =>
    rw [declared, List.append_nil]
    exact h
  | cons c cs ih =>
    rw [declared, ← List.append_assoc]
    exact ih (h.declare c.1 c.2)

/-- After any declarations the tables place what was declared, and nothing else. -/
theorem declares_run (generated : String) (cs : List (Resolver × Declaration)) :
    ((start generated).run cs).Declares ((start generated).declared cs) :=
  (declares_start generated).run cs

/-! ## The table of a module -/

/-- What was declared is where it was said to be. -/
theorem Declares.locate_of_mem (h : d.Declares xs) {x : Declared} (hx : x ∈ xs) :
    d.table.locate x.function x.block = ⟨x.function, x.block, some x.source⟩ := by
  have hsource : (d.table.slot? x.function x.block).bind d.table.sourcePos? = some x.source :=
    (h.source x.function x.block x.source).2 hx
  rw [Table.locate_eq, hsource]

/-- What was not declared is nowhere. -/
theorem Declares.locate_of_not_mem (h : d.Declares xs) {f : Nat} {b : Option Nat}
    (hno : ∀ x ∈ xs, x.function = f → x.block ≠ b) : d.table.locate f b = ⟨f, b, none⟩ := by
  rw [Table.locate_eq]
  cases hsource : (d.table.slot? f b).bind d.table.sourcePos? with
  | none => rfl
  | some s => exact absurd rfl (hno _ ((h.source f b s).1 hsource) rfl)

/-- The table comes back from a trace as it was, if lines, columns and the number of paths have 32
bits. -/
theorem Declares.ofBytes_toBytes (h : d.Declares xs) (hpaths : d.paths.length < 0x100000000)
    (hpos : ∀ x ∈ xs, x.source.pos.Fits) : Table.ofBytes d.table.toBytes = .ok d.table := by
  refine Table.ofBytes_toBytes h.valid (Table.each_iff.2 ?_)
  intro f b l hl
  have hlt : l.path < d.paths.length := Table.each_iff.1 h.valid f b l hl
  have hsource : d.table.sourcePos? l = some ⟨d.paths[l.path], l.pos⟩ :=
    Table.sourcePos?_eq_some.2 ⟨List.getElem?_eq_getElem hlt, rfl⟩
  have hmem : (⟨f, b, ⟨d.paths[l.path], l.pos⟩⟩ : Declared) ∈ xs := by
    refine (h.source f b _).1 ?_
    rw [Table.locate_eq, hl]
    exact hsource
  exact ⟨hpos _ hmem, Nat.lt_trans hlt hpaths⟩

end Declarations

end Retrace
