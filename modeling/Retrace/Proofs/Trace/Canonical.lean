import Retrace.Proofs.Trace.Packed

/-!
# Canonical — the packed form with the fewest fields

A location can be packed with a column or a path that the one before it has said already.  Packing
again leaves these out, and nothing else.

* `Packer.run_emit`, `Packer.run_accept` — writing and reading keep the same column and path;
* `Table.packStreams_eq_pack`, `Table.unpackStreams_eq_unpack` — and so the streams agree with the
  packed form;
* `PackedLocation.Reduces` — a location with fewer fields than another, or the same;
* `Packer.reduces_pack_unpack` — what a location stands for is packed with the fewest fields;
* `Packer.Reads` — what reading a sequence says about packing it again;
* `PackedTable.at?` — the location at a place of a packed table;
* `Table.packStreams_canonical` — of all packed forms of a table its own has the fewest fields at
  every place, and no other one has as few.
-/

namespace Retrace

/-! ## Streams -/

namespace Packer

variable {paths : Nat}

/-- Whatever has been written, a location leaves its own column and path behind. -/
theorem run_emit (p : Packer) (l : Location) : (emit l).run p = (p.pack l, after l) := by
  rcases l with ⟨⟨line, column⟩, path⟩
  simp only [emit, StateT.run_bind, StateT.run_get, pure_bind, pack, after, ne_eq]
  by_cases hpath : path = p.path
  · by_cases hcolumn : column = p.column
    · -- nothing is changed, since both stand there already
      subst hpath hcolumn
      simp only [not_true_eq_false, if_false]
      rfl
    · subst hpath
      simp only [not_true_eq_false, if_false, if_pos hcolumn]
      rfl
  · simp only [if_pos hpath]
    rfl

theorem run_emitAll (p : Packer) (ls : List (Option Location)) :
    (emitAll ls).run p = p.packAll ls := by
  induction ls generalizing p with
  | nil => rfl
  | cons l rest ih =>
    rw [emitAll, List.mapM_cons, StateT.run_bind]
    cases l with
    | none =>
      rw [packAll, ← ih]
      rfl
    | some l =>
      rw [Option.mapM_some, StateT.run_map, run_emit, packAll, ← ih]
      rfl

/-- Whatever has been given, what is kept are the column and path of the location. -/
theorem run_accept (p : Packer) (given : PackedLocation) :
    (accept given).run p = .ok (p.unpack given, after (p.unpack given)) := by
  cases given <;> rfl

theorem run_acceptChecked (p : Packer) (given : PackedLocation) :
    (acceptChecked paths given).run p =
      p.unpackChecked paths given >>= fun l => .ok (l, after l) := by
  rw [acceptChecked, StateT.run_bind, run_accept, Except.ok_bind, unpackChecked]
  by_cases hpath : (p.unpack given).path < paths
  · simp only [if_pos hpath]
    rfl
  · simp only [if_neg hpath]
    rfl

theorem run_acceptAll (p : Packer) (given : List (Option PackedLocation)) :
    (acceptAll paths given).run p = p.unpackAll paths given := by
  induction given generalizing p with
  | nil => rfl
  | cons first rest ih =>
    rw [acceptAll, List.mapM_cons, StateT.run_bind]
    cases first with
    | none =>
      rw [unpackAll, ← ih]
      rfl
    | some packed =>
      rw [Option.mapM_some, StateT.run_map, run_acceptChecked, unpackAll, map_bind, bind_assoc]
      simp only [← ih]
      rfl

theorem run_mapM_emitAll (p : Packer) (lists : List (List (Option Location))) :
    ((lists.mapM emitAll).run p).1 = p.packLists lists := by
  induction lists generalizing p with
  | nil => rfl
  | cons ls rest ih =>
    rw [List.mapM_cons, StateT.run_bind, run_emitAll, packLists]
    simp only [← ih]
    rfl

theorem run_mapM_acceptAll (p : Packer) (given : List (List (Option PackedLocation))) :
    (given.mapM (acceptAll paths)).run' p = p.unpackLists paths given := by
  induction given generalizing p with
  | nil => rfl
  | cons first rest ih =>
    rw [List.mapM_cons, StateT.run'_eq, StateT.run_bind, run_acceptAll, unpackLists]
    simp [← ih]

end Packer

namespace Table

theorem packStreams_eq_pack (t : Table) : t.packStreams = t.pack := by
  unfold packStreams pack
  rw [Packer.run_mapM_emitAll, Packer.run_emitAll]

theorem unpackStreams_eq_unpack (p : PackedTable) : unpackStreams p = unpack p := by
  unfold unpackStreams unpack
  rw [Packer.run_mapM_acceptAll, StateT.run'_eq, Packer.run_acceptAll, bind_map_left]

end Table

/-! ## Locations -/

namespace PackedLocation

/-- The number of fields that are written out. -/
def fields : PackedLocation → Nat
  | line _ => 1
  | lineColumn _ _ => 2
  | full _ _ _ => 3

/-- A location with no more fields than another, and the same one if it has as many. -/
structure Reduces (own given : PackedLocation) : Prop where
  fields_le : own.fields ≤ given.fields
  eq : own.fields = given.fields → own = given

theorem Reduces.refl (l : PackedLocation) : Reduces l l := ⟨Nat.le_refl _, fun _ => rfl⟩

theorem Reduces.of_lt {own given : PackedLocation} (h : own.fields < given.fields) :
    Reduces own given := ⟨Nat.le_of_lt h, fun heq => absurd heq (Nat.ne_of_lt h)⟩

end PackedLocation

namespace Packer

open PackedLocation

variable {p last : Packer} {paths : Nat}

/-- Packing what a location stands for leaves out what the location before has said. -/
theorem reduces_pack_unpack (p : Packer) (given : PackedLocation) :
    (p.pack (p.unpack given)).Reduces given := by
  cases given with
  | line l =>
    have hpack : p.pack (p.unpack (.line l)) = .line l := by simp [pack, unpack]
    rw [hpack]
    exact .refl _
  | lineColumn l c =>
    by_cases hcolumn : c = p.column
    · have hpack : p.pack (p.unpack (.lineColumn l c)) = .line l := by simp [pack, unpack, hcolumn]
      rw [hpack]
      exact .of_lt (Nat.lt_succ_self 1)
    · have hpack : p.pack (p.unpack (.lineColumn l c)) = .lineColumn l c := by
        simp [pack, unpack, hcolumn]
      rw [hpack]
      exact .refl _
  | full l c q =>
    by_cases hpath : q = p.path
    · -- the path has been said, and the column either has or has not
      have hfields : (p.pack (p.unpack (.full l c q))).fields ≤ 2 := by
        by_cases hcolumn : c = p.column <;> simp [pack, unpack, hpath, hcolumn, fields]
      exact .of_lt (Nat.lt_succ_of_le hfields)
    · have hpack : p.pack (p.unpack (.full l c q)) = .full l c q := by simp [pack, unpack, hpath]
      rw [hpack]
      exact .refl _

theorem unpackChecked_eq_ok {given : PackedLocation} {l : Location} :
    p.unpackChecked paths given = .ok l ↔ p.unpack given = l ∧ l.path < paths := by
  unfold unpackChecked
  by_cases hpath : (p.unpack given).path < paths
  · simp only [if_pos hpath, Except.ok.injEq]
    exact ⟨fun h => ⟨h, h ▸ hpath⟩, fun h => h.1⟩
  · simp only [if_neg hpath, reduceCtorEq, false_iff]
    rintro ⟨rfl, hlt⟩
    exact hpath hlt

/-! ## Sequences -/

/-- The sequence `given` stands for `ls`: these lie in sources that there are, and packing them
again reduces what was given and ends with the same column and path. -/
structure Reads (p : Packer) (paths : Nat) (given : List (Option PackedLocation))
    (ls : List (Option Location)) (last : Packer) : Prop where
  path_lt : ∀ l, some l ∈ ls → l.path < paths
  packs : (p.packAll ls).2 = last
  reduces : List.Forall₂ (Option.Rel Reduces) (p.packAll ls).1 given

theorem reads_unpackAll {given : List (Option PackedLocation)} {ls : List (Option Location)}
    (h : p.unpackAll paths given = .ok (ls, last)) : p.Reads paths given ls last := by
  induction given generalizing p ls with
  | nil =>
    cases h
    exact ⟨fun l hl => absurd hl List.not_mem_nil, rfl, .nil⟩
  | cons first rest ih =>
    cases first with
    | none =>
      rcases Except.bind_eq_ok.1 h with ⟨⟨ls', last'⟩, hrest, h⟩
      cases h
      have hreads := ih hrest
      refine ⟨fun l hl => ?_, hreads.packs, .cons .none hreads.reduces⟩
      rcases List.mem_cons.1 hl with hnone | hl
      · cases hnone
      · exact hreads.path_lt l hl
    | some given =>
      rcases Except.bind_eq_ok.1 h with ⟨l, hchecked, h⟩
      rcases Except.bind_eq_ok.1 h with ⟨⟨ls', last'⟩, hrest, h⟩
      cases h
      rcases unpackChecked_eq_ok.1 hchecked with ⟨rfl, hpath⟩
      -- after a location both sides go on from its column and path, whatever form it had
      have hreads := ih hrest
      refine ⟨fun l hl => ?_, hreads.packs, .cons (.some ?_) hreads.reduces⟩
      · rcases List.mem_cons.1 hl with hfirst | hl
        · cases hfirst
          exact hpath
        · exact hreads.path_lt l hl
      · exact p.reduces_pack_unpack given

theorem reads_unpackLists {given : List (List (Option PackedLocation))}
    {lists : List (List (Option Location))} (h : p.unpackLists paths given = .ok lists) :
    (∀ ls ∈ lists, ∀ l, some l ∈ ls → l.path < paths) ∧
      List.Forall₂ (List.Forall₂ (Option.Rel Reduces)) (p.packLists lists) given := by
  induction given generalizing p lists with
  | nil =>
    cases h
    exact ⟨fun ls hls => absurd hls List.not_mem_nil, .nil⟩
  | cons first rest ih =>
    rcases Except.bind_eq_ok.1 h with ⟨⟨ls, last⟩, hfirst, h⟩
    rcases Except.bind_eq_ok.1 h with ⟨lists', hrest, h⟩
    cases h
    have hreads := reads_unpackAll hfirst
    rcases ih hrest with ⟨hpaths, hreduces⟩
    refine ⟨List.forall_mem_cons.2 ⟨hreads.path_lt, hpaths⟩, .cons hreads.reduces ?_⟩
    rw [hreads.packs]
    exact hreduces

end Packer

/-! ## Packed tables -/

theorem forall₂_zipWith_cons {α β : Type} {R : α → β → Prop} {as : List α} {bs : List β}
    {ass : List (List α)} {bss : List (List β)} (h : List.Forall₂ R as bs)
    (hs : List.Forall₂ (List.Forall₂ R) ass bss) :
    List.Forall₂ (List.Forall₂ R) (List.zipWith (· :: ·) as ass)
      (List.zipWith (· :: ·) bs bss) := by
  induction h generalizing ass bss with
  | nil => exact .nil
  | cons hfirst _ ih =>
    cases hs with
    | nil => exact .nil
    | cons hlist hrest => exact .cons (.cons hfirst hlist) (ih hrest)

namespace PackedTable

open PackedLocation

variable {own given : PackedTable}

/-- The location at place `j` of entry `i`, if there is one. -/
def at? (s : PackedTable) (i j : Nat) : Option PackedLocation :=
  (s.entries[i]?.bind fun e => e[j]?).join

/-- The same places, each of which reduces that of the other table. -/
def Reduces (own given : PackedTable) : Prop :=
  List.Forall₂ (List.Forall₂ (Option.Rel PackedLocation.Reduces)) own.entries given.entries

/-- Every entry with a place for its function, also where nothing is given. -/
def withHeads (s : PackedTable) : PackedTable :=
  ⟨s.paths, s.entries.map fun e => e.head?.join :: e.tail⟩

/-- A place for a function adds no location. -/
theorem at?_withHeads (s : PackedTable) (i j : Nat) : s.withHeads.at? i j = s.at? i j := by
  rw [at?, at?, withHeads, List.getElem?_map]
  cases s.entries[i]? with
  | none => rfl
  | some e =>
    cases e with
    | nil => cases j <;> rfl
    | cons first rest => rfl

theorem withHeads_eq {s : PackedTable} (h : ∀ e ∈ s.entries, e ≠ []) : s.withHeads = s := by
  have hentries : (s.entries.map fun e => e.head?.join :: e.tail) = s.entries := by
    refine (List.map_congr_left fun e he => ?_).trans (List.map_id s.entries)
    cases e with
    | nil => exact absurd rfl (h [] he)
    | cons first rest => rfl
  rw [withHeads, hentries]

/-! ### Entries -/

section Entries

variable {own given : List (Option PackedLocation)}

theorem rel_getElem? (h : List.Forall₂ (Option.Rel PackedLocation.Reduces) own given) (j : Nat) :
    Option.Rel PackedLocation.Reduces own[j]?.join given[j]?.join := by
  induction h generalizing j with
  | nil => exact .none
  | cons hfirst _ ih =>
    cases j with
    | zero => exact hfirst
    | succ j => exact ih j

theorem eq_of_fields (h : List.Forall₂ (Option.Rel PackedLocation.Reduces) own given)
    (hfields : ∀ j : Nat, own[j]?.join.map fields = given[j]?.join.map fields) : own = given := by
  induction h with
  | nil => rfl
  | cons hfirst _ ih =>
    have hsame := hfields 0
    rw [ih fun j => hfields (j + 1)]
    cases hfirst with
    | none => rfl
    | some hreduces => rw [hreduces.eq (Option.some.inj hsame)]

end Entries

/-! ### All places -/

/-- What reduces a table reduces it at every place. -/
theorem Reduces.rel_at? (h : own.Reduces given) (i j : Nat) :
    Option.Rel PackedLocation.Reduces (own.at? i j) (given.at? i j) := by
  rcases own with ⟨paths, owns⟩
  rcases given with ⟨paths', givens⟩
  change List.Forall₂ _ owns givens at h
  induction h generalizing i with
  | nil => exact .none
  | cons hfirst _ ih =>
    cases i with
    | zero => exact rel_getElem? hfirst j
    | succ i => exact ih i

/-- With as many fields at every place nothing has been left out. -/
theorem Reduces.entries_eq (h : own.Reduces given)
    (hfields : ∀ i j, (own.at? i j).map fields = (given.at? i j).map fields) :
    own.entries = given.entries := by
  rcases own with ⟨paths, owns⟩
  rcases given with ⟨paths', givens⟩
  change List.Forall₂ _ owns givens at h
  change owns = givens
  induction h with
  | nil => rfl
  | cons hfirst _ ih => rw [eq_of_fields hfirst (hfields 0), ih fun i => hfields (i + 1)]

end PackedTable

/-! ## Tables -/

namespace Table

open PackedLocation

variable {s : PackedTable} {t : Table}

/-- A packed table that can be read stands for a valid table, and packing this reduces it. -/
theorem reduces_pack (h : unpack s = .ok t) :
    t.Valid ∧ t.paths = s.paths ∧ t.pack.Reduces s.withHeads := by
  rcases Except.bind_eq_ok.1 h with ⟨⟨heads, last⟩, hheads, h⟩
  rcases Except.bind_eq_ok.1 h with ⟨blocks, hblocks, h⟩
  cases h
  have hreads := Packer.reads_unpackAll hheads
  rcases Packer.reads_unpackLists hblocks with ⟨hpaths, hreduces⟩
  -- there are as many functions as lists of blocks, one of each for every entry
  have hlength : heads.length = blocks.length := by
    have hlocations := hreads.reduces.length_eq
    have hlists := hreduces.length_eq
    rw [Packer.length_packAll, List.length_map] at hlocations
    rw [Packer.length_packLists, List.length_map] at hlists
    rw [hlocations, hlists]
  have hlocations : (List.zipWith FunctionEntry.mk heads blocks).map (·.location) = heads :=
    map_zipWith_left (fun _ _ => rfl) hlength
  have hlists : (List.zipWith FunctionEntry.mk heads blocks).map (·.blocks) = blocks :=
    map_zipWith_right (fun _ _ => rfl) hlength
  refine ⟨each_iff_locations.2 fun l hl => ?_, rfl, ?_⟩
  · simp only [locations, hlocations, hlists] at hl
    rcases List.mem_append.1 hl with hl | hl
    · exact hreads.path_lt l hl
    · rcases List.mem_flatten.1 hl with ⟨ls, hls, hl⟩
      exact hpaths ls hls l hl
  · have hentries : s.withHeads.entries
        = List.zipWith (· :: ·) (s.entries.map fun e => e.head?.join) (s.entries.map List.tail) := by
      rw [List.zipWith_map, List.zipWith_self]
      rfl
    rw [PackedTable.Reduces, hentries]
    simp only [pack, hlocations, hlists]
    exact forall₂_zipWith_cons hreads.reduces hreduces

/-- Packing the table of any packed form gives a form that is read as the same table and packed in
the same way once more.  At every place it has a location if the given form has one, with no more
fields than that.  No other form that lists a place for every function has as few fields. -/
theorem packStreams_canonical (h : unpackStreams s = .ok t) :
    unpackStreams t.packStreams = .ok t ∧
      (∀ t', unpackStreams t.packStreams = .ok t' → t'.packStreams = t.packStreams) ∧
      (∀ i j, Option.Rel (fun own given => own.fields ≤ given.fields) (t.packStreams.at? i j)
        (s.at? i j)) ∧
      ((∀ e ∈ s.entries, e ≠ []) →
        (∀ i j, (t.packStreams.at? i j).map fields = (s.at? i j).map fields) →
        s = t.packStreams) := by
  simp only [packStreams_eq_pack, unpackStreams_eq_unpack] at h ⊢
  obtain ⟨hvalid, hpaths, hreduces⟩ := reduces_pack h
  have hagain : unpack t.pack = .ok t := unpack_pack hvalid
  refine ⟨hagain, ?_, ?_, ?_⟩
  · intro t' ht'
    cases hagain.symm.trans ht'
    rfl
  · intro i j
    have hplace := hreduces.rel_at? i j
    rw [PackedTable.at?_withHeads] at hplace
    generalize t.pack.at? i j = own at hplace ⊢
    generalize s.at? i j = given at hplace ⊢
    cases hplace with
    | none => exact .none
    | some hplace => exact .some hplace.fields_le
  · intro hheads hfields
    rw [PackedTable.withHeads_eq hheads] at hreduces
    have hentries := hreduces.entries_eq hfields
    rcases s with ⟨paths, entries⟩
    cases hpaths
    cases hentries
    rfl

/-- Locations with columns and paths that need not be given, and an entry without a place for its
function. -/
def wordy : PackedTable :=
  ⟨["a", "b"],
    [[some (.full 3 1 1), some (.full 4 0 0), none, some (.lineColumn 4 7)], [],
      [none, some (.full 5 7 0), some (.lineColumn 6 7)], [some (.lineColumn 9 1)]]⟩

/-- The same without them. -/
def terse : PackedTable :=
  ⟨["a", "b"],
    [[some (.full 3 1 1), some (.line 4), none, some (.lineColumn 4 7)], [none],
      [none, some (.line 5), some (.line 6)], [some (.line 9)]]⟩

theorem packStreams_canonical_wordy :
    ∃ t, unpackStreams wordy = .ok t ∧ t.packStreams = terse ∧ unpackStreams terse = .ok t ∧
      (∀ i j, Option.Rel (fun own given => own.fields ≤ given.fields) (terse.at? i j)
        (wordy.at? i j)) ∧
      wordy.at? 2 1 = some (.full 5 7 0) ∧ terse.at? 2 1 = some (.line 5) := by
  have hread : unpackStreams wordy = .ok
      ⟨["a", "b"],
        [⟨some ⟨⟨3, 1⟩, 1⟩, [some ⟨⟨4, 0⟩, 0⟩, none, some ⟨⟨4, 7⟩, 0⟩]⟩, ⟨none, []⟩,
          ⟨none, [some ⟨⟨5, 7⟩, 0⟩, some ⟨⟨6, 7⟩, 0⟩]⟩, ⟨some ⟨⟨9, 1⟩, 1⟩, []⟩]⟩ := rfl
  rcases packStreams_canonical hread with ⟨hagain, -, hfields, -⟩
  exact ⟨_, hread, rfl, hagain, hfields, rfl, rfl⟩

end Table

end Retrace
