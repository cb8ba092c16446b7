import Retrace.Proofs.Json.Node
import Retrace.Proofs.Result
import Retrace.Trace.Table.Packed

/-!
# Packed — a table comes back from its packed form and from its text

* `Packer.unpack_pack`, `Packer.unpackAll_packAll` — what a location leaves out is what the one
  before it says;
* `Table.unpack_pack` — a table comes back from its packed form, if it lists every path it uses;
* `PackedTable.ofNode?_toJson` — the packed form comes back from its text;
* `Table.ofBytes_toBytes` — and so the table comes back from the bytes that a trace carries;
* `Table.pack_readable_or_stray` — unless one of its locations lies in none of its sources.
-/

namespace Retrace

/-- Line and column have 32 bits. -/
structure Pos.Fits (p : Pos) : Prop where
  line : p.line < 0x100000000
  column : p.column < 0x100000000

/-- The numbers of a location have 32 bits. -/
structure Location.Fits (l : Location) : Prop where
  pos : l.pos.Fits
  path : l.path < 0x100000000

namespace Table

/-- What holds of every location in a table. -/
def Each (P : Location → Prop) (t : Table) : Prop :=
  ∀ f ∈ t.functions, ∀ l, some l ∈ f.location :: f.blocks → P l

/-- Every location lies in a path that the table lists. -/
def Valid (t : Table) : Prop := t.Each fun l => l.path < t.paths.length

/-- All locations, those of the functions before those of the blocks. -/
def locations (t : Table) : List (Option Location) :=
  t.functions.map (·.location) ++ (t.functions.map (·.blocks)).flatten

theorem Each.location {P : Location → Prop} {t : Table} (h : t.Each P) {l : Location}
    (hl : some l ∈ t.functions.map (·.location)) : P l := by
  rcases List.mem_map.1 hl with ⟨f, hf, hlocation⟩
  exact h f hf l (hlocation ▸ List.mem_cons_self)

theorem Each.block {P : Location → Prop} {t : Table} (h : t.Each P)
    {blocks : List (Option Location)} (hblocks : blocks ∈ t.functions.map (·.blocks))
    {l : Location} (hl : some l ∈ blocks) : P l := by
  rcases List.mem_map.1 hblocks with ⟨f, hf, rfl⟩
  exact h f hf l (List.mem_cons_of_mem _ hl)

theorem each_iff_locations {P : Location → Prop} {t : Table} :
    t.Each P ↔ ∀ l, some l ∈ t.locations → P l := by
  constructor
  · intro h l hl
    rcases List.mem_append.1 hl with hlocation | hblock
    · exact h.location hlocation
    · rcases List.mem_flatten.1 hblock with ⟨blocks, hblocks, hl⟩
      exact h.block hblocks hl
  · intro h f hf l hl
    refine h l (List.mem_append.2 ?_)
    rcases List.mem_cons.1 hl with hlocation | hblock
    · exact .inl (List.mem_map.2 ⟨f, hf, hlocation.symm⟩)
    · exact .inr (List.mem_flatten.2 ⟨f.blocks, List.mem_map_of_mem hf, hblock⟩)

end Table

namespace Packer

variable {paths : Nat}

/-! ## Locations -/

/-- What a location leaves out is put in again. -/
theorem unpack_pack (p : Packer) (l : Location) : p.unpack (p.pack l) = l := by
  rcases l with ⟨⟨line, column⟩, path⟩
  unfold pack
  by_cases hpath : path = p.path
  · by_cases hcolumn : column = p.column
    · simp [hpath, hcolumn, unpack]
    · simp [hpath, hcolumn, unpack]
  · simp [hpath, unpack]

theorem unpackChecked_pack (p : Packer) {l : Location} (h : l.path < paths) :
    p.unpackChecked paths (p.pack l) = .ok l := by
  simp only [unpackChecked, unpack_pack, if_pos h]

theorem length_packAll (p : Packer) (ls : List (Option Location)) :
    (p.packAll ls).1.length = ls.length := by
  induction ls generalizing p with
  | nil => rfl
  | cons l rest ih =>
    cases l with
    | none => exact congrArg Nat.succ (ih p)
    | some l => exact congrArg Nat.succ (ih (after l))

/-- Reading goes through the same columns and paths as writing. -/
theorem unpackAll_packAll (p : Packer) {ls : List (Option Location)}
    (h : ∀ l, some l ∈ ls → l.path < paths) :
    p.unpackAll paths (p.packAll ls).1 = .ok (ls, (p.packAll ls).2) := by
  induction ls generalizing p with
  | nil => rfl
  | cons l rest ih =>
    have hrest := fun p => ih p fun l hl => h l (List.mem_cons_of_mem _ hl)
    cases l with
    | none =>
      rw [packAll, unpackAll, hrest p, Except.ok_bind]
      rfl
    | some l =>
      -- what comes after `l` starts from the same column and path on either side
      have hl := h l List.mem_cons_self
      rw [packAll, unpackAll, unpackChecked_pack p hl, Except.ok_bind, hrest (after l),
        Except.ok_bind]
      rfl

theorem length_packLists (p : Packer) (lists : List (List (Option Location))) :
    (p.packLists lists).length = lists.length := by
  induction lists generalizing p with
  | nil => rfl
  | cons ls rest ih => exact congrArg Nat.succ (ih (p.packAll ls).2)

theorem unpackLists_packLists (p : Packer) {lists : List (List (Option Location))}
    (h : ∀ ls ∈ lists, ∀ l, some l ∈ ls → l.path < paths) :
    p.unpackLists paths (p.packLists lists) = .ok lists := by
  induction lists generalizing p with
  | nil => rfl
  | cons ls rest ih =>
    have hls := h ls List.mem_cons_self
    have hrest := ih (p.packAll ls).2 fun ls' hls' => h ls' (List.mem_cons_of_mem ls hls')
    rw [packLists, unpackLists, unpackAll_packAll p hls, Except.ok_bind]
    simp only [hrest, Except.ok_bind]
    rfl

/-! ## Locations in no source -/

/-- The first location whose path is not one of `paths`. -/
def stray? (paths : Nat) (ls : List (Option Location)) : Option Location :=
  ls.findSome? (Option.filter fun l => paths ≤ l.path)

theorem stray?_eq_none {ls : List (Option Location)} :
    stray? paths ls = none ↔ ∀ l, some l ∈ ls → l.path < paths := by
  simp only [stray?, List.findSome?_eq_none_iff, Option.filter_eq_none_iff, decide_eq_true_eq,
    Nat.not_le]
  constructor
  · intro h l hl
    exact h (some l) hl l rfl
  · rintro h _ hl l rfl
    exact h l hl

theorem stray?_append (ls ls' : List (Option Location)) :
    stray? paths (ls ++ ls') = (stray? paths ls).or (stray? paths ls') :=
  List.findSome?_append

/-- Reading stops at the first location that lies in no source. -/
theorem unpackAll_packAll_stray (p : Packer) {ls : List (Option Location)} {l : Location}
    (h : stray? paths ls = some l) :
    p.unpackAll paths (p.packAll ls).1
      = .error (.invalidTable (.pathOutOfRange l.path paths)) := by
  induction ls generalizing p with
  | nil => cases h
  | cons first rest ih =>
    cases first with
    | none =>
      rw [packAll, unpackAll, ih p h]
      rfl
    | some first =>
      by_cases hfirst : first.path < paths
      -- `first` is read back, and what follows goes on from it
      · have hrest : stray? paths rest = some l := by
          rwa [stray?, List.findSome?_cons, Option.filter_some, if_neg (by simpa using hfirst)] at h
        rw [packAll, unpackAll, unpackChecked_pack p hfirst, Except.ok_bind, ih (after first) hrest]
        rfl
      · have hl : first = l := by
          rw [stray?, List.findSome?_cons, Option.filter_some, if_pos (by simpa using hfirst)] at h
          exact Option.some.inj h
        have hchecked : p.unpackChecked paths (p.pack first)
            = .error (.invalidTable (.pathOutOfRange first.path paths)) := by
          simp only [unpackChecked, unpack_pack, if_neg hfirst]
        rw [packAll, unpackAll, hchecked, hl]
        rfl

theorem unpackLists_packLists_stray (p : Packer) {lists : List (List (Option Location))}
    {l : Location} (h : stray? paths lists.flatten = some l) :
    p.unpackLists paths (p.packLists lists)
      = .error (.invalidTable (.pathOutOfRange l.path paths)) := by
  induction lists generalizing p with
  | nil => cases h
  | cons ls rest ih =>
    rw [List.flatten_cons, stray?_append] at h
    cases hls : stray? paths ls with
    | some first =>
      rw [hls, Option.some_or, Option.some.injEq] at h
      rw [packLists, unpackLists, unpackAll_packAll_stray p hls, h]
      rfl
    | none =>
      rw [hls, Option.none_or] at h
      rw [packLists, unpackLists, unpackAll_packAll p (stray?_eq_none.1 hls), Except.ok_bind]
      simp only [ih _ h]
      rfl

/-- Everything that is packed is packed from a location. -/
theorem exists_of_mem_packAll (p : Packer) {ls : List (Option Location)} {packed : PackedLocation}
    (h : some packed ∈ (p.packAll ls).1) :
    ∃ p' l, some l ∈ ls ∧ packed = Packer.pack p' l := by
  induction ls generalizing p with
  | nil => cases h
  | cons l rest ih =>
    cases l with
    | none =>
      rcases List.mem_cons.1 h with hnone | hrest
      · cases hnone
      · rcases ih p hrest with ⟨p', l, hl, hpacked⟩
        exact ⟨p', l, List.mem_cons_of_mem _ hl, hpacked⟩
    | some l =>
      rcases List.mem_cons.1 h with hfirst | hrest
      · exact ⟨p, l, List.mem_cons_self, Option.some.inj hfirst⟩
      · rcases ih (after _) hrest with ⟨p', l, hl, hpacked⟩
        exact ⟨p', l, List.mem_cons_of_mem _ hl, hpacked⟩

theorem exists_of_mem_packLists (p : Packer) {lists : List (List (Option Location))}
    {ls : List (Option PackedLocation)} (h : ls ∈ p.packLists lists) :
    ∃ p' ls', ls' ∈ lists ∧ ls = (Packer.packAll p' ls').1 := by
  induction lists generalizing p with
  | nil => cases h
  | cons first rest ih =>
    rcases List.mem_cons.1 h with hfirst | hrest
    · exact ⟨p, first, List.mem_cons_self, hfirst⟩
    · rcases ih _ hrest with ⟨p', ls', hls', hpacked⟩
      exact ⟨p', ls', List.mem_cons_of_mem _ hls', hpacked⟩

end Packer

/-! ## Tables -/

section ZipWith

variable {α β γ : Type} {f : α → β → γ} {as : List α} {bs : List β}

theorem zipWith_eq_map_zip (f : α → β → γ) (as : List α) (bs : List β) :
    List.zipWith f as bs = (as.zip bs).map fun x => f x.1 x.2 :=
  List.map_uncurry_zip_eq_zipWith.symm

/-- Two lists of one length come back from what is made of them item by item. -/
theorem map_zipWith_left {g : γ → α} (hg : ∀ a b, g (f a b) = a) (h : as.length = bs.length) :
    (List.zipWith f as bs).map g = as := by
  rw [zipWith_eq_map_zip, List.map_map]
  simpa only [Function.comp_def, hg] using List.map_fst_zip (Nat.le_of_eq h)

theorem map_zipWith_right {g : γ → β} (hg : ∀ a b, g (f a b) = b) (h : as.length = bs.length) :
    (List.zipWith f as bs).map g = bs := by
  rw [zipWith_eq_map_zip, List.map_map]
  simpa only [Function.comp_def, hg] using List.map_snd_zip (Nat.le_of_eq h.symm)

theorem map_head?_zipWith_cons {heads : List (Option α)} {tails : List (List (Option α))}
    (h : heads.length = tails.length) :
    (List.zipWith (· :: ·) heads tails).map (fun e => e.head?.join) = heads :=
  map_zipWith_left (fun _ _ => rfl) h

theorem map_tail_zipWith_cons {heads : List α} {tails : List (List α)}
    (h : heads.length = tails.length) :
    (List.zipWith (· :: ·) heads tails).map List.tail = tails :=
  map_zipWith_right (fun _ _ => rfl) h

theorem mem_of_mem_zipWith_cons {heads : List α} {tails : List (List α)} {e : List α}
    (h : e ∈ List.zipWith (· :: ·) heads tails) {a : α} (ha : a ∈ e) :
    a ∈ heads ∨ ∃ as ∈ tails, a ∈ as := by
  induction heads generalizing tails with
  | nil => cases h
  | cons head heads ih =>
    cases tails with
    | nil => cases h
    | cons tail tails =>
      rcases List.mem_cons.1 h with rfl | h
      · rcases List.mem_cons.1 ha with rfl | ha
        · exact .inl List.mem_cons_self
        · exact .inr ⟨tail, List.mem_cons_self, ha⟩
      · rcases ih h with hhead | ⟨as, has, ha⟩
        · exact .inl (List.mem_cons_of_mem head hhead)
        · exact .inr ⟨as, List.mem_cons_of_mem tail has, ha⟩

end ZipWith

namespace Table

variable {t : Table}

theorem length_packed (t : Table) :
    (Packer.start.packAll (t.functions.map (·.location))).1.length
      = (Packer.start.packLists (t.functions.map (·.blocks))).length := by
  rw [Packer.length_packAll, Packer.length_packLists, List.length_map, List.length_map]

/-- The first location of a table that lies in none of its sources. -/
def stray? (t : Table) : Option Location := Packer.stray? t.paths.length t.locations

/-- A table is valid if it has no such location. -/
theorem stray?_eq_none : t.stray? = none ↔ t.Valid := by
  rw [stray?, Packer.stray?_eq_none, Valid, each_iff_locations]

/-- What was packed is unpacked, the locations of the functions first. -/
theorem unpack_pack_eq (t : Table) :
    unpack t.pack =
      (Packer.start.unpackAll t.paths.length
          (Packer.start.packAll (t.functions.map (·.location))).1 >>= fun heads =>
        Packer.start.unpackLists t.paths.length
            (Packer.start.packLists (t.functions.map (·.blocks))) >>= fun blocks =>
          .ok ⟨t.paths, List.zipWith FunctionEntry.mk heads.1 blocks⟩) := by
  unfold unpack
  simp only [pack, map_head?_zipWith_cons t.length_packed, map_tail_zipWith_cons t.length_packed]
  rfl

/-- A table comes back from its packed form. -/
theorem unpack_pack (h : t.Valid) : unpack t.pack = .ok t := by
  have hheads : Packer.start.unpackAll t.paths.length
      (Packer.start.packAll (t.functions.map (·.location))).1
        = .ok (t.functions.map (·.location), _) :=
    Packer.start.unpackAll_packAll fun l hl => h.location hl
  have hblocks : Packer.start.unpackLists t.paths.length
      (Packer.start.packLists (t.functions.map (·.blocks))) = .ok (t.functions.map (·.blocks)) :=
    Packer.start.unpackLists_packLists fun ls hls l hl => h.block hls hl
  have hfunctions : List.zipWith FunctionEntry.mk (t.functions.map (·.location))
      (t.functions.map (·.blocks)) = t.functions := by
    rw [List.zipWith_map, List.zipWith_self]
    exact List.map_id _
  simp only [unpack_pack_eq, hheads, Except.ok_bind, hblocks, hfunctions]

/-- A table that is not valid does not come back: its first stray location is reported. -/
theorem unpack_pack_stray {l : Location} (h : t.stray? = some l) :
    unpack t.pack = .error (.invalidTable (.pathOutOfRange l.path t.paths.length)) := by
  rw [stray?, locations, Packer.stray?_append] at h
  rw [unpack_pack_eq]
  cases hheads : Packer.stray? t.paths.length (t.functions.map (·.location)) with
  | some first =>
    rw [hheads, Option.some_or, Option.some.injEq] at h
    rw [Packer.unpackAll_packAll_stray _ hheads, h]
    rfl
  | none =>
    rw [hheads, Option.none_or] at h
    rw [Packer.unpackAll_packAll _ (Packer.stray?_eq_none.1 hheads), Except.ok_bind]
    simp only [Packer.unpackLists_packLists_stray _ h]
    rfl

end Table

/-! ## Text -/

/-- The numbers of a packed location have 32 bits. -/
def PackedLocation.Fits : PackedLocation → Prop
  | line l => l < 0x100000000
  | lineColumn l c => l < 0x100000000 ∧ c < 0x100000000
  | full l c p => l < 0x100000000 ∧ c < 0x100000000 ∧ p < 0x100000000

namespace Packer

theorem fits_pack (p : Packer) {l : Location} (h : l.Fits) : (p.pack l).Fits := by
  unfold pack
  by_cases hpath : l.path = p.path
  · by_cases hcolumn : l.pos.column = p.column
    · simpa [hpath, hcolumn, PackedLocation.Fits] using h.pos.line
    · simpa [hpath, hcolumn, PackedLocation.Fits] using ⟨h.pos.line, h.pos.column⟩
  · simpa [hpath, PackedLocation.Fits] using ⟨h.pos.line, h.pos.column, h.path⟩

end Packer

theorem PackedLocation.ofNode?_toJson {p : PackedLocation} (h : p.Fits) :
    ofNode? p.toJson.node = some p ∧ p.toJson.node ≠ .null := by
  refine ⟨?_, by cases p <;> exact Node.noConfusion⟩
  cases p with
  | line l =>
    change ((Json.num l).node.nat? 0x100000000).map line = some (line l)
    rw [Node.nat?_node h]
    rfl
  | lineColumn l c =>
    have hnumbers : (Json.arr ([l, c].map .num)).node.list? (Node.nat? 0x100000000) = some [l, c] :=
      Node.nats?_node (by simpa [Fits] using h)
    change ((Json.arr ([l, c].map .num)).node.list? (Node.nat? 0x100000000)).bind _ = _
    rw [hnumbers]
    rfl
  | full l c q =>
    have hnumbers : (Json.arr ([l, c, q].map .num)).node.list? (Node.nat? 0x100000000)
        = some [l, c, q] :=
      Node.nats?_node (by simpa [Fits] using h)
    change ((Json.arr ([l, c, q].map .num)).node.list? (Node.nat? 0x100000000)).bind _ = _
    rw [hnumbers]
    rfl

/-- The packed form of a table comes back from its text. -/
theorem PackedTable.ofNode?_toJson {p : PackedTable}
    (h : ∀ e ∈ p.entries, ∀ packed, some packed ∈ e → packed.Fits) :
    ofNode? p.toJson.node = some p := by
  have hpaths : (Json.arr (p.paths.map .str)).node.list? Node.string? = some p.paths :=
    Node.list?_node fun s _ => Node.string?_node s
  have hentries : (Json.arr (p.entries.map fun e =>
        .arr (e.map (Json.ofOption PackedLocation.toJson)))).node.list?
          (Node.list? (Node.option? PackedLocation.ofNode?)) = some p.entries := by
    refine Node.list?_node fun e he => ?_
    refine Node.list?_node fun location hlocation => ?_
    refine Node.option?_node ?_
    rintro packed rfl
    exact PackedLocation.ofNode?_toJson (h e he packed hlocation)
  have hrecord : p.toJson.node.record? ["sourcePaths", "fnInfos"]
      = some [some (Json.arr (p.paths.map .str)).node,
          some (Json.arr (p.entries.map fun e =>
            .arr (e.map (Json.ofOption PackedLocation.toJson)))).node] := by
    exact Node.record?_node (by simp) ["sourcePaths", "fnInfos"]
  rw [ofNode?, hrecord]
  simp only [Option.bind_eq_bind, Option.bind_some, Node.required?, hpaths, hentries]
  rfl

namespace Table

variable {t : Table}

theorem fits_of_mem_pack (h : t.Each Location.Fits) {e : List (Option PackedLocation)}
    (he : e ∈ t.pack.entries) {packed : PackedLocation} (hpacked : some packed ∈ e) :
    packed.Fits := by
  rcases mem_of_mem_zipWith_cons he hpacked with hhead | ⟨ls, hls, hblock⟩
  · rcases Packer.exists_of_mem_packAll Packer.start hhead with ⟨p, l, hl, rfl⟩
    exact p.fits_pack (h.location hl)
  · rcases Packer.exists_of_mem_packLists Packer.start hls with ⟨p, ls', hls', rfl⟩
    rcases Packer.exists_of_mem_packAll p hblock with ⟨p', l, hl, rfl⟩
    exact p'.fits_pack (h.block hls' hl)

/-- The bytes that a trace carries for a table hold its packed form. -/
theorem ofBytes_toBytes_eq (hfits : t.Each Location.Fits) : ofBytes t.toBytes = unpack t.pack := by
  have hnode : Node.ofBytes? t.toBytes = some t.pack.toJson.node := Node.ofBytes?_compact _
  have hpacked : PackedTable.ofNode? t.pack.toJson.node = some t.pack :=
    PackedTable.ofNode?_toJson fun e he packed hmem => fits_of_mem_pack hfits he hmem
  simp only [ofBytes, hnode, Option.bind_some, hpacked]

/-- A table comes back from the bytes that a trace carries for it. -/
theorem ofBytes_toBytes (hvalid : t.Valid) (hfits : t.Each Location.Fits) :
    ofBytes t.toBytes = .ok t := by
  rw [ofBytes_toBytes_eq hfits]
  exact unpack_pack hvalid

/-- A table whose locations all lie in sources that it lists comes back from its packed form, and
from the bytes that a trace carries for it.  Any other table is refused on the way back, for the
first location that does not, with those of the functions before those of the blocks. -/
theorem pack_readable_or_stray (t : Table) :
    (t.Valid → unpack t.pack = .ok t ∧ (t.Each Location.Fits → ofBytes t.toBytes = .ok t)) ∧
      (¬ t.Valid →
        ∃ l, t.stray? = some l ∧
          unpack t.pack = .error (.invalidTable (.pathOutOfRange l.path t.paths.length)) ∧
          (t.Each Location.Fits →
            ofBytes t.toBytes
              = .error (.invalidTable (.pathOutOfRange l.path t.paths.length)))) := by
  constructor
  · intro hvalid
    exact ⟨unpack_pack hvalid, ofBytes_toBytes hvalid⟩
  · intro hinvalid
    cases hstray : t.stray? with
    | none => exact absurd (stray?_eq_none.1 hstray) hinvalid
    | some l =>
      refine ⟨l, rfl, unpack_pack_stray hstray, fun hfits => ?_⟩
      exact (ofBytes_toBytes_eq hfits).trans (unpack_pack_stray hstray)

/-- A table of two sources: the function is the first of its sequence in the second source, the
blocks start over in the first one. -/
def twoSources : Table :=
  ⟨["a", "b"], [⟨some ⟨⟨3, 1⟩, 1⟩, [some ⟨⟨4, 0⟩, 0⟩, none, some ⟨⟨4, 7⟩, 0⟩]⟩, ⟨none, []⟩]⟩

/-- A table with a block in its third source and a later function in its sixth, of which it has
one. -/
def strayFunction : Table :=
  ⟨["a"], [⟨some ⟨⟨0, 0⟩, 0⟩, [some ⟨⟨1, 0⟩, 2⟩]⟩, ⟨some ⟨⟨2, 0⟩, 5⟩, []⟩]⟩

theorem pack_readable_or_stray_twoSources :
    ofBytes twoSources.toBytes = .ok twoSources ∧
      unpack strayFunction.pack = .error (.invalidTable (.pathOutOfRange 5 1)) ∧
      ofBytes strayFunction.toBytes = .error (.invalidTable (.pathOutOfRange 5 1)) := by
  have hvalid : twoSources.Valid := stray?_eq_none.1 rfl
  have hfits : twoSources.Each Location.Fits := by
    refine each_iff_locations.2 fun l hl => ?_
    simp only [twoSources, locations, List.map_cons, List.map_nil, List.flatten_cons,
      List.flatten_nil, List.cons_append, List.nil_append, List.mem_cons, List.not_mem_nil,
      Option.some.injEq, reduceCtorEq, or_false, false_or] at hl
    rcases hl with rfl | rfl | rfl
    all_goals exact ⟨⟨by decide, by decide⟩, by decide⟩
  have hfits' : strayFunction.Each Location.Fits := by
    refine each_iff_locations.2 fun l hl => ?_
    simp only [strayFunction, locations, List.map_cons, List.map_nil, List.flatten_cons,
      List.flatten_nil, List.cons_append, List.nil_append, List.mem_cons, List.not_mem_nil,
      Option.some.injEq, or_false] at hl
    rcases hl with rfl | rfl | rfl
    all_goals exact ⟨⟨by decide, by decide⟩, by decide⟩
  have hstray : strayFunction.stray? = some ⟨⟨2, 0⟩, 5⟩ := rfl
  have hinvalid : ¬ strayFunction.Valid := by
    intro h
    cases hstray.symm.trans (stray?_eq_none.2 h)
  rcases (pack_readable_or_stray strayFunction).2 hinvalid with ⟨l, hl, hunpack, hbytes⟩
  cases hl.symm.trans hstray
  exact ⟨((pack_readable_or_stray twoSources).1 hvalid).2 hfits, hunpack, hbytes hfits'⟩

end Table

end Retrace
