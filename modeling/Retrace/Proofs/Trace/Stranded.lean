import Retrace.Proofs.Trace.Declarations

/-!
# Stranded — what a refused declaration leaves behind

A block is looked up in its sources before its function is.  When the function turns out to be
unknown, or to have no number left, the path of the block stays listed although nothing stands
there.

* `Declarations.stranded` — the path that a refused declaration leaves in the list;
* `Declarations.Shifted` — one list has a path earlier than the other, and all else agrees;
* `Declarations.Shifted.run` — which later declarations keep up;
* `Declarations.Leaves` — how what is declared with it compares to what is declared without it.
-/

namespace Retrace

/-! ## Tables from their slots -/

theorem FunctionEntry.ext_locate {entry entry' : FunctionEntry}
    (hlength : entry'.blocks.length = entry.blocks.length)
    (hlocate : ∀ b, entry'.locate b = entry.locate b) : entry' = entry := by
  have hlocation : entry'.location = entry.location := hlocate none
  have hblocks : entry'.blocks = entry.blocks := by
    refine List.ext_getElem hlength fun b hb' hb => ?_
    have hblock : entry'.blocks[b]?.join = entry.blocks[b]?.join := hlocate (some b)
    rw [List.getElem?_eq_getElem hb', List.getElem?_eq_getElem hb] at hblock
    exact hblock
  cases entry
  cases entry'
  cases hlocation
  cases hblocks
  rfl

/-- A table's functions are what their slots hold, given how many blocks there are. -/
theorem Table.functions_ext (t t' : Table)
    (hcounts : t'.functions.map (fun entry => entry.blocks.length)
      = t.functions.map fun entry => entry.blocks.length)
    (hslot : ∀ f b, t'.slot? f b = t.slot? f b) : t'.functions = t.functions := by
  have hlength : t'.functions.length = t.functions.length := by
    simpa using congrArg List.length hcounts
  refine List.ext_getElem hlength fun f hf' hf => FunctionEntry.ext_locate ?_ fun b => ?_
  · have hcount := congrArg (fun counts => counts[f]?) hcounts
    simpa [List.getElem?_eq_getElem hf', List.getElem?_eq_getElem hf] using hcount
  · have hlocate := hslot f b
    rwa [slot?, slot?, List.getElem?_eq_getElem hf', List.getElem?_eq_getElem hf,
      Option.bind_some, Option.bind_some] at hlocate

namespace Declarations

variable {d d' : Declarations} {xs : List Declared} {resolve : Resolver} {c : Declaration}

/-! ## The paths -/

theorem paths_declare (resolve : Resolver) (d : Declarations) (c : Declaration) :
    d.paths <+: (d.declare resolve c).2.paths := by
  have h := declaring resolve d c
  generalize d.declare resolve c = out at h
  cases h with
  | manyFunctions | lostFunction | lostBlock => exact List.prefix_refl _
  | function | undeclared | manyBlocks | block => exact List.prefix_append _ _

/-- A path that is listed stays where it is. -/
theorem paths_run (d : Declarations) (cs : List (Resolver × Declaration)) :
    d.paths <+: (d.run cs).paths := by
  induction cs generalizing d with
  | nil => exact List.prefix_refl _
  | cons c cs ih => exact (paths_declare c.1 d c.2).trans (ih _)

/-! ## A declaration that is refused -/

/-- The path that a refused declaration leaves in the list: that of a block, where it is new. -/
def stranded (resolve : Resolver) (d : Declarations) : Declaration → List String
  | .function _ => []
  | .block _ p =>
    match d.origin resolve p with
    | .error _ => []
    | .ok s => d.unlisted s.path

/-- Nothing else is left of it. -/
theorem declare_refused {e : Error} (herror : (d.declare resolve c).1 = .error e) :
    (d.declare resolve c).2 = { d with paths := d.paths ++ d.stranded resolve c } := by
  have h := declaring resolve d c
  generalize d.declare resolve c = out at h herror
  cases h with
  | function | block => cases herror
  | manyFunctions | lostFunction => simp only [stranded, List.append_nil]
  | lostBlock hsource => simp only [stranded, hsource, List.append_nil]
  | undeclared hsource | manyBlocks hsource => simp only [stranded, hsource]

theorem stranded_eq (resolve : Resolver) (d : Declarations) (c : Declaration) :
    d.stranded resolve c = [] ∨ ∃ a, d.stranded resolve c = [a] ∧ a ∉ d.paths := by
  unfold stranded unlisted
  split
  · exact .inl rfl
  · split
    · exact .inl rfl
    · next s _ =>
      by_cases hlisted : s.path ∈ d.paths
      · exact .inl (if_pos hlisted)
      · exact .inr ⟨s.path, if_neg hlisted, hlisted⟩

/-! ## Declaring the same things twice -/

/-- What some declarations answer. -/
def answers (d : Declarations) : List (Resolver × Declaration) → List (Except Error Nat)
  | [] => []
  | c :: rest => (d.declare c.1 c.2).1 :: (d.declare c.1 c.2).2.answers rest

/-- How many blocks each function has. -/
def counts (d : Declarations) : List Nat := d.functions.map fun entry => entry.blocks.length

/-- The same was declared in both, but the second may list `a` earlier, or list it alone. -/
structure Shifted (a : String) (d d' : Declarations) : Prop where
  generated : d'.generated = d.generated
  counts : d'.counts = d.counts
  listed : a ∈ d'.paths
  rest : d'.paths.erase a = d.paths.erase a

variable {a : String}

theorem Shifted.length (h : Shifted a d d') : d'.functions.length = d.functions.length := by
  have hlength := congrArg List.length h.counts
  rwa [Declarations.counts, Declarations.counts, List.length_map, List.length_map] at hlength

theorem Shifted.origin (h : Shifted a d d') (resolve : Resolver) (p : Pos) :
    d'.origin resolve p = d.origin resolve p := by
  rw [Declarations.origin, Declarations.origin, h.generated]

theorem Shifted.entry_eq_none (h : Shifted a d d') {f : Nat} (hentry : d.functions[f]? = none) :
    d'.functions[f]? = none := by
  rw [List.getElem?_eq_none_iff, h.length]
  exact List.getElem?_eq_none_iff.1 hentry

theorem Shifted.exists_entry (h : Shifted a d d') {f : Nat} {entry : FunctionEntry}
    (hentry : d.functions[f]? = some entry) :
    ∃ entry', d'.functions[f]? = some entry' ∧ entry'.blocks.length = entry.blocks.length := by
  have hcount := congrArg (fun counts => counts[f]?) h.counts
  simp only [Declarations.counts, List.getElem?_map, hentry, Option.map_some,
    Option.map_eq_some_iff] at hcount
  exact hcount

theorem erase_append_of_not_mem {added : List String} (ha : a ∉ added) (paths : List String) :
    (paths ++ added).erase a = paths.erase a ++ added := by
  rw [List.erase_append]
  by_cases hlisted : a ∈ paths
  · rw [if_pos hlisted]
  · rw [if_neg hlisted, List.erase_of_not_mem ha, List.erase_of_not_mem hlisted]

/-- Listing a path in both keeps the lists equal but for `a`. -/
theorem Shifted.erase_unlisted (h : Shifted a d d') (path : String) :
    (d'.paths ++ d'.unlisted path).erase a = (d.paths ++ d.unlisted path).erase a := by
  unfold unlisted
  by_cases hpath : path = a
  · subst hpath
    rw [if_pos h.listed, List.append_nil, h.rest]
    by_cases hlisted : path ∈ d.paths
    · rw [if_pos hlisted, List.append_nil]
    · rw [if_neg hlisted, List.erase_append_right _ hlisted, List.erase_cons_head,
        List.append_nil, List.erase_of_not_mem hlisted]
  · -- any other path is listed in both or in neither
    have hiff : path ∈ d'.paths ↔ path ∈ d.paths := by
      rw [← List.mem_erase_of_ne hpath, h.rest, List.mem_erase_of_ne hpath]
    have hne : a ∉ (if path ∈ d.paths then ([] : List String) else [path]) := by
      split
      · exact List.not_mem_nil
      · exact fun hmem => hpath (List.mem_singleton.1 hmem).symm
    simp only [hiff]
    rw [erase_append_of_not_mem hne, erase_append_of_not_mem hne, h.rest]

/-- A path is listed in both, and the functions are given as many blocks in both. -/
theorem Shifted.lists (h : Shifted a d d') (path : String)
    {functions functions' : List FunctionEntry}
    (hcounts : functions'.map (fun entry => entry.blocks.length)
      = functions.map fun entry => entry.blocks.length) :
    Shifted a ⟨d.generated, d.paths ++ d.unlisted path, functions⟩
      ⟨d'.generated, d'.paths ++ d'.unlisted path, functions'⟩ where
  generated := h.generated
  counts := hcounts
  listed := List.mem_append_left _ h.listed
  rest := h.erase_unlisted path

/-- The same declaration gets the same answer in both, and does the same to both. -/
theorem Shifted.declare (h : Shifted a d d') (resolve : Resolver) (c : Declaration) :
    (d'.declare resolve c).1 = (d.declare resolve c).1 ∧
      Shifted a (d.declare resolve c).2 (d'.declare resolve c).2 := by
  -- which way it goes depends on the resolver and on the counts, and on no path
  have hc := declaring resolve d c
  generalize d.declare resolve c = out at hc
  cases hc with
  | manyFunctions hid =>
    rw [← h.length] at hid ⊢
    rw [(Declaring.manyFunctions hid).eq]
    exact ⟨rfl, h⟩
  | lostFunction hid hsource =>
    rw [← h.length] at hid
    rw [← h.origin] at hsource
    rw [(Declaring.lostFunction hid hsource).eq]
    exact ⟨rfl, h⟩
  | function hid hsource =>
    rw [← h.length] at hid
    rw [← h.origin] at hsource
    rw [(Declaring.function hid hsource).eq, h.length]
    refine ⟨rfl, h.lists _ ?_⟩
    -- the new function has no blocks yet
    rw [List.map_append, List.map_append, List.map_singleton, List.map_singleton]
    exact congrArg (· ++ [0]) h.counts
  | lostBlock hsource =>
    rw [← h.origin] at hsource
    rw [(Declaring.lostBlock hsource).eq]
    exact ⟨rfl, h⟩
  | undeclared hsource hentry =>
    rw [← h.origin] at hsource
    rw [(Declaring.undeclared hsource (h.entry_eq_none hentry)).eq]
    exact ⟨rfl, h.lists _ h.counts⟩
  | manyBlocks hsource hentry hid =>
    rw [← h.origin] at hsource
    rcases h.exists_entry hentry with ⟨entry', hentry', hblocks⟩
    rw [← hblocks] at hid ⊢
    rw [(Declaring.manyBlocks hsource hentry' hid).eq]
    exact ⟨rfl, h.lists _ h.counts⟩
  | block hsource hentry hid =>
    rw [← h.origin] at hsource
    rcases h.exists_entry hentry with ⟨entry', hentry', hblocks⟩
    rw [← hblocks] at hid
    rw [(Declaring.block hsource hentry' hid).eq, hblocks]
    refine ⟨rfl, h.lists _ ?_⟩
    -- the locations may differ in the numbers of their paths, but there is one more in both
    have hcounts : d'.functions.map (fun entry => entry.blocks.length)
        = d.functions.map fun entry => entry.blocks.length := h.counts
    rw [List.map_set, List.map_set, List.length_append, List.length_append, hblocks, hcounts]
    rfl

theorem Shifted.run (h : Shifted a d d') (cs : List (Resolver × Declaration)) :
    Shifted a (d.run cs) (d'.run cs) := by
  induction cs generalizing d d' with
  | nil => exact h
  | cons c cs ih => exact ih (h.declare c.1 c.2).2

theorem Shifted.answers (h : Shifted a d d') (cs : List (Resolver × Declaration)) :
    d'.answers cs = d.answers cs := by
  induction cs generalizing d d' with
  | nil => rfl
  | cons c cs ih =>
    rcases h.declare c.1 c.2 with ⟨hanswer, hnext⟩
    rw [Declarations.answers, Declarations.answers, hanswer, ih hnext]

theorem Shifted.declared (h : Shifted a d d') (cs : List (Resolver × Declaration)) :
    d'.declared cs = d.declared cs := by
  induction cs generalizing d d' with
  | nil => rfl
  | cons c cs ih =>
    rcases h.declare c.1 c.2 with ⟨hanswer, hnext⟩
    rw [Declarations.declared, Declarations.declared, declared?, declared?, hanswer, h.generated,
      ih hnext]

/-! ## The table -/

/-- Where the same was declared, the same is found. -/
theorem Declares.locate_table (h : d.Declares xs) (h' : d'.Declares xs) (f : Nat) (b : Option Nat) :
    d'.table.locate f b = d.table.locate f b := by
  have hsource : (d'.table.locate f b).source = (d.table.locate f b).source := by
    refine Option.ext fun s => ?_
    rw [h'.source, h.source]
  exact congrArg (Place.mk f b) hsource

/-- A slot is known from the paths and from what was declared. -/
theorem Declares.slot?_eq_some (h : d.Declares xs) {f : Nat} {b : Option Nat} {l : Location} :
    d.table.slot? f b = some l ↔
      ∃ path, d.paths[l.path]? = some path ∧ ⟨f, b, ⟨path, l.pos⟩⟩ ∈ xs := by
  constructor
  · intro hslot
    have hlt : l.path < d.paths.length := Table.each_iff.1 h.valid f b l hslot
    have hpath : d.paths[l.path]? = some d.paths[l.path] := List.getElem?_eq_getElem hlt
    refine ⟨d.paths[l.path], hpath, (h.source f b _).1 ?_⟩
    rw [Table.locate_eq, hslot]
    exact Table.sourcePos?_eq_some.2 ⟨hpath, rfl⟩
  · rintro ⟨path, hpath, hmem⟩
    have hsource := (h.source f b _).2 hmem
    rw [Table.locate_eq] at hsource
    rcases Option.bind_eq_some_iff.1 hsource with ⟨l', hslot, hl'⟩
    rcases Table.sourcePos?_eq_some.1 hl' with ⟨hpath', hpos⟩
    -- no path is listed twice
    have hindex : l'.path = l.path :=
      (List.getElem?_inj (List.getElem?_eq_some_iff.1 hpath').1 h.distinct).1
        (hpath'.trans hpath.symm)
    rcases l' with ⟨pos, i⟩
    cases hpos
    cases hindex
    exact hslot

/-- Where the same was declared under the same paths, the tables are the same. -/
theorem Declares.table_eq (h : d.Declares xs) (h' : d'.Declares xs) (hpaths : d'.paths = d.paths)
    (hcounts : d'.counts = d.counts) : d'.table = d.table := by
  have hfunctions : d'.functions = d.functions := by
    have hslot : ∀ f b, d'.table.slot? f b = d.table.slot? f b := by
      intro f b
      refine Option.ext fun l => ?_
      rw [h.slot?_eq_some, h'.slot?_eq_some, hpaths]
    exact Table.functions_ext d.table d'.table hcounts hslot
  rw [table, table, hpaths, hfunctions]

/-- The lists of paths are the same again once `a` has its place in both. -/
theorem Shifted.paths_eq_iff (h : Shifted a d d') {paths : List String}
    (hpaths : paths ++ [a] <+: d'.paths) : d'.paths = d.paths ↔ paths ++ [a] <+: d.paths := by
  constructor
  · intro hsame
    rwa [← hsame]
  · rintro ⟨more, hmore⟩
    rcases hpaths with ⟨more', hmore'⟩
    have hmem : a ∈ paths ++ [a] := List.mem_append_right _ (List.mem_singleton_self a)
    have hrest := h.rest
    rw [← hmore, ← hmore', List.erase_append_left _ hmem, List.erase_append_left _ hmem] at hrest
    rw [← hmore, ← hmore', List.append_cancel_left hrest]

/-- And then the tables are. -/
theorem Shifted.table_eq_iff (h : Shifted a d d') (hleft : d.Declares xs) (hright : d'.Declares xs)
    {paths : List String} (hpaths : paths ++ [a] <+: d'.paths) :
    d'.table = d.table ↔ paths ++ [a] <+: d.paths := by
  rw [← h.paths_eq_iff hpaths]
  constructor
  · exact congrArg Table.paths
  · intro hsame
    exact hleft.table_eq hright hsame h.counts

/-- A declaration that is refused declares nothing, whatever it strands. -/
theorem Declares.of_refused {e : Error} (h : d.Declares xs)
    (herror : (d.declare resolve c).1 = .error e) : (d.declare resolve c).2.Declares xs := by
  have hdeclare := h.declare resolve c
  rwa [declared?_error herror, Option.toList_none, List.append_nil] at hdeclare

/-- Refusing a declaration shifts the path that it strands. -/
theorem shifted_of_stranded {e : Error} (herror : (d.declare resolve c).1 = .error e)
    (hstranded : d.stranded resolve c = [a]) (hnew : a ∉ d.paths) :
    Shifted a d (d.declare resolve c).2 := by
  rw [declare_refused herror, hstranded]
  refine ⟨rfl, rfl, List.mem_append_right _ (List.mem_singleton_self a), ?_⟩
  rw [List.erase_append_right _ hnew, List.erase_cons_head, List.append_nil,
    List.erase_of_not_mem hnew]

/-- How two lists of declarations compare, the second of which lists some paths more, and how they do
when the same has been declared in both. -/
structure Leaves (left : List String) (after : List (Resolver × Declaration))
    (d d' : Declarations) : Prop where
  state : d' = { d with paths := d.paths ++ left }
  answers : d'.answers after = d.answers after
  locate : ∀ f b, (d'.run after).table.locate f b = (d.run after).table.locate f b
  listed : ∀ a ∈ left, a ∈ (d'.run after).paths ∧
    (d'.run after).paths.erase a = (d.run after).paths.erase a
  table : (d'.run after).table = (d.run after).table ↔ d.paths ++ left <+: (d.run after).paths

/-- What a declaration that is refused leaves, whatever has been declared so far. -/
theorem Declares.leaves {e : Error} (hdeclares : d.Declares xs)
    (herror : d.declare resolve c = (.error e, d')) (after : List (Resolver × Declaration)) :
    Leaves (d.stranded resolve c) after d d' := by
  have hfst : (d.declare resolve c).1 = .error e := by rw [herror]
  have hsnd : (d.declare resolve c).2 = d' := by rw [herror]
  have hstate := declare_refused hfst
  rw [hsnd] at hstate
  rcases stranded_eq resolve d c with hnone | ⟨a, hone, hnew⟩
  · -- nothing is stranded, so that nothing changes
    have hsame : d' = d := by
      rw [hstate, hnone, List.append_nil]
    rw [hnone, hsame]
    refine ⟨?_, rfl, fun _ _ => rfl, ?_, ?_⟩
    · rw [List.append_nil]
    · intro a ha
      cases ha
    · rw [List.append_nil]
      exact iff_of_true rfl (paths_run d after)
  · have hshifted : Shifted a d d' := hsnd ▸ shifted_of_stranded hfst hone hnew
    have hrun := hshifted.run after
    have hpaths : d.paths ++ [a] <+: (d'.run after).paths := by
      have hlisted : d'.paths = d.paths ++ [a] := by
        rw [hstate, hone]
      rw [← hlisted]
      exact paths_run d' after
    have hleft : (d.run after).Declares (xs ++ d.declared after) := hdeclares.run after
    have hright : (d'.run after).Declares (xs ++ d.declared after) := by
      rw [← hshifted.declared after, ← hsnd]
      exact (hdeclares.of_refused hfst).run after
    rw [hone] at hstate ⊢
    refine ⟨hstate, hshifted.answers after, hleft.locate_table hright, ?_,
      hrun.table_eq_iff hleft hright hpaths⟩
    intro b hb
    cases List.mem_singleton.1 hb
    exact ⟨hrun.listed, hrun.rest⟩

/-- There are no fewer paths where some more have been listed. -/
theorem Leaves.length_le {left : List String} {after : List (Resolver × Declaration)}
    (h : Leaves left after d d') : (d.run after).paths.length ≤ (d'.run after).paths.length := by
  cases left with
  | nil =>
    have hsame : d' = d := by
      rw [h.state, List.append_nil]
    exact Nat.le_of_eq (hsame ▸ rfl)
  | cons a left =>
    obtain ⟨hlisted, hrest⟩ := h.listed a List.mem_cons_self
    have hlength := congrArg List.length hrest
    have hpos := List.length_pos_of_mem hlisted
    rw [List.length_erase, if_pos hlisted, List.length_erase] at hlength
    split at hlength
    · omega
    · omega

/-- A declaration that is refused leaves nothing behind but the path that it strands.  Later
declarations are answered as they would have been, and what they declare is found where it would
have been found.  The paths are those that would have been listed, apart from the place of the
stranded one, so that the table is the same exactly when that path would have been listed next. -/
theorem run_of_refused (generated : String) (before after : List (Resolver × Declaration))
    (resolve : Resolver) (c : Declaration) {d d' : Declarations} {e : Error}
    (hd : (start generated).run before = d) (herror : d.declare resolve c = (.error e, d')) :
    d' = { d with paths := d.paths ++ d.stranded resolve c } ∧
      d'.answers after = d.answers after ∧
      (∀ f b, (d'.run after).table.locate f b = (d.run after).table.locate f b) ∧
      (∀ a ∈ d.stranded resolve c, a ∈ (d'.run after).paths ∧
        (d'.run after).paths.erase a = (d.run after).paths.erase a) ∧
      ((d'.run after).table = (d.run after).table ↔
        d.paths ++ d.stranded resolve c <+: (d.run after).paths) := by
  have hdeclares : d.Declares ((start generated).declared before) := by
    rw [← hd]
    exact declares_run generated before
  have hleaves := hdeclares.leaves herror after
  exact ⟨hleaves.state, hleaves.answers, hleaves.locate, hleaves.listed, hleaves.table⟩

/-- Two lines of a generated file come from sources of their own. -/
def twoLines : Resolver
  | ⟨0, _⟩ => .ok (some ⟨"a.ts", ⟨5, 0⟩⟩)
  | ⟨1, _⟩ => .ok (some ⟨"b.ts", ⟨6, 0⟩⟩)
  | _ => .ok none

/-- A block of an unknown function, with a function and one of its blocks declared afterwards. -/
theorem run_of_refused_twoLines :
    let d := (start "out.js").run [(twoLines, .function ⟨2, 0⟩)]
    let d' := (d.declare twoLines (.block 3 ⟨0, 0⟩)).2
    let after := [(twoLines, Declaration.function ⟨1, 0⟩), (twoLines, .block 1 ⟨0, 4⟩)]
    d.declare twoLines (.block 3 ⟨0, 0⟩) = (.error (.invalidTable (.undeclaredFunction 3)), d') ∧
      d'.paths = ["out.js", "a.ts"] ∧
      d'.answers after = [.ok 1, .ok 0] ∧
      (d'.run after).table.locate 1 (some 0) = ⟨1, some 0, some ⟨"a.ts", ⟨5, 0⟩⟩⟩ ∧
      (d'.run after).paths.erase "a.ts" = ["out.js", "b.ts"] ∧
      (d'.run after).table ≠ (d.run after).table := by
  intro d d' after
  have herror : d.declare twoLines (.block 3 ⟨0, 0⟩)
      = (.error (.invalidTable (.undeclaredFunction 3)), d') := rfl
  rcases run_of_refused "out.js" [(twoLines, .function ⟨2, 0⟩)] after twoLines
    (.block 3 ⟨0, 0⟩) rfl herror with ⟨hstate, hanswers, hlocate, hrest, htable⟩
  refine ⟨herror, ?_, ?_, ?_, ?_, ?_⟩
  · rw [hstate]
    decide
  · rw [hanswers]
    rfl
  · rw [hlocate]
    decide
  · rw [(hrest "a.ts" (by decide)).2]
    decide
  · rw [ne_eq, htable]
    decide

/-- Refusing a block can move the path of the next function. -/
theorem refused_block_moves_path :
    let d := start "out.js"
    let d' := (d.declare twoLines (.block 0 ⟨0, 0⟩)).2
    let after := [(twoLines, Declaration.function ⟨1, 0⟩)]
    d.declare twoLines (.block 0 ⟨0, 0⟩) = (.error (.invalidTable (.undeclaredFunction 0)), d') ∧
      (d.run after).table = ⟨["b.ts"], [⟨some ⟨⟨6, 0⟩, 0⟩, []⟩]⟩ ∧
      (d'.run after).table = ⟨["a.ts", "b.ts"], [⟨some ⟨⟨6, 0⟩, 1⟩, []⟩]⟩ :=
  ⟨rfl, rfl, rfl⟩

end Declarations

end Retrace
