import Mathlib.Data.List.Perm.Subperm
import Retrace.Proofs.Distinct
import Retrace.Proofs.Trace.Register

/-!
# Numbering — the numbers and the paths of declarations that all succeed

The functions of a file are numbered one after another, and so are the blocks of each function, in
whatever order they are declared.  The paths of their sources are listed in the order in which they
first come up.

* `Declarations.idsOf_run` — the numbers of what belongs together have no gaps;
* `Declarations.paths_run_eq` — the paths are those that come up, without repetitions;
* `Declarations.exists_declared` — each number stands for what was declared;
* `Register.run_of_answers_ok` — all of this holds of a register, whose table can be read back.
-/

namespace Retrace

/-- The function that a block belongs to. -/
def Declaration.owner : Declaration → Option Nat
  | function _ => none
  | block f _ => some f

/-- The numbers handed out to functions, or to the blocks of one of them. -/
def Declaration.idsOf (owner : Option Nat) (cs : List (Resolver × Declaration)) (ids : List Nat) :
    List Nat :=
  ((cs.zip ids).filter fun x => x.1.2.owner = owner).map Prod.snd

namespace Declarations

variable {d : Declarations} {resolve : Resolver} {c : Declaration} {id : Nat}
  {cs : List (Resolver × Declaration)} {ids : List Nat}

/-! ## One declaration -/

/-- The number that comes next for functions, or for the blocks of one of them. -/
def next (d : Declarations) : Option Nat → Nat
  | none => d.functions.length
  | some f => (d.functions[f]?.map fun entry => entry.blocks.length).getD 0

theorem generated_declare (resolve : Resolver) (d : Declarations) (c : Declaration) :
    (d.declare resolve c).2.generated = d.generated := by
  have h := declaring resolve d c
  generalize d.declare resolve c = out at h
  cases h <;> rfl

theorem origin_declare (resolve resolve' : Resolver) (d : Declarations) (c : Declaration)
    (p : Pos) : (d.declare resolve c).2.origin resolve' p = d.origin resolve' p := by
  rw [origin, origin, generated_declare]

/-- A declaration that succeeds gets the next number, and what it declares is known. -/
theorem of_declare_ok (hok : (d.declare resolve c).1 = .ok id) :
    id = d.next c.owner ∧ id ≤ Event.maxOperand ∧ ∃ s, d.origin resolve c.pos = .ok s ∧
      (d.declare resolve c).2.paths = d.paths ++ d.unlisted s.path ∧
      d.declared? resolve c = some (c.numbered id s) := by
  have h := declaring resolve d c
  rcases hout : d.declare resolve c with ⟨answer, d'⟩
  rw [hout] at h hok
  cases h with
  | manyFunctions | lostFunction | lostBlock | undeclared | manyBlocks => cases hok
  | @function p s hid hsource =>
    cases hok
    exact ⟨rfl, hid, s, hsource, rfl, declared?_ok hout hsource⟩
  | @block f p s entry hsource hentry hid =>
    cases hok
    refine ⟨?_, hid, s, hsource, rfl, declared?_ok hout hsource⟩
    simp only [next, Declaration.owner, hentry, Option.map_some, Option.getD_some]

/-- Only the number that was handed out is taken. -/
theorem next_declare (hok : (d.declare resolve c).1 = .ok id) (owner : Option Nat) :
    (d.declare resolve c).2.next owner
      = if c.owner = owner then d.next owner + 1 else d.next owner := by
  have h := declaring resolve d c
  generalize d.declare resolve c = out at h hok
  cases h with
  | manyFunctions | lostFunction | lostBlock | undeclared | manyBlocks => cases hok
  | function hid hsource =>
    cases owner with
    | none =>
      simp only [Declaration.owner, if_true, next, List.length_append, List.length_singleton]
    | some g =>
      -- the new function has no blocks yet
      simp only [Declaration.owner, reduceCtorEq, if_false, next]
      rcases Nat.lt_trichotomy g d.functions.length with hg | rfl | hg
      · rw [List.getElem?_append_left hg]
      · rw [List.getElem?_concat_length, List.getElem?_eq_none (Nat.le_refl _)]
        rfl
      · rw [List.getElem?_eq_none (Nat.le_of_lt hg), List.getElem?_eq_none]
        rw [List.length_append, List.length_singleton]
        omega
  | @block f p s entry hsource hentry hid =>
    cases owner with
    | none => simp only [Declaration.owner, reduceCtorEq, if_false, next, List.length_set]
    | some g =>
      by_cases hg : f = g
      · subst hg
        have hlt : f < d.functions.length := (List.getElem?_eq_some_iff.1 hentry).1
        simp only [Declaration.owner, if_true, next, List.getElem?_set_self hlt, hentry,
          Option.map_some, Option.getD_some, List.length_append, List.length_singleton]
      · simp only [Declaration.owner, Option.some.injEq, if_neg hg, next, List.getElem?_set_ne hg]

/-! ## Declarations that all succeed -/

theorem answers_cons_eq_map {x : Resolver × Declaration}
    (h : d.answers (x :: cs) = ids.map .ok) :
    ∃ id rest, ids = id :: rest ∧ (d.declare x.1 x.2).1 = .ok id ∧
      (d.declare x.1 x.2).2.answers cs = rest.map .ok := by
  rcases List.map_eq_cons_iff.1 h.symm with ⟨id, rest, hids, hid, hrest⟩
  exact ⟨id, rest, hids, hid.symm, hrest.symm⟩

/-- What belongs together is numbered without gaps, from the next number on. -/
theorem idsOf_run (h : d.answers cs = ids.map .ok) (owner : Option Nat) :
    Declaration.idsOf owner cs ids
      = List.range' (d.next owner) (Declaration.idsOf owner cs ids).length := by
  induction cs generalizing d ids with
  | nil => rfl
  | cons x cs ih =>
    rcases answers_cons_eq_map h with ⟨id, rest, rfl, hid, hrest⟩
    have hnext := next_declare hid owner
    -- the first declaration takes the next number, or it is not among those that are counted
    by_cases howner : x.2.owner = owner
    · have hcons : Declaration.idsOf owner (x :: cs) (id :: rest)
          = id :: Declaration.idsOf owner cs rest := by
        simp only [Declaration.idsOf, List.zip_cons_cons, List.filter_cons, howner, decide_true,
          if_true, List.map_cons]
      have hfirst : id = d.next owner := by
        rw [(of_declare_ok hid).1, howner]
      rw [if_pos howner, ← hfirst] at hnext
      have hmore := ih hrest
      rw [hnext] at hmore
      rw [hcons, List.length_cons, List.range'_succ, ← hfirst, ← hmore]
    · have hskip : Declaration.idsOf owner (x :: cs) (id :: rest)
          = Declaration.idsOf owner cs rest := by
        simp only [Declaration.idsOf, List.zip_cons_cons, List.filter_cons, howner, decide_false,
          Bool.false_eq_true, if_false]
      rw [if_neg howner] at hnext
      rw [hskip, ← hnext]
      exact ih hrest

/-- Where the declared positions come from, as far as that is known. -/
def sources (d : Declarations) (cs : List (Resolver × Declaration)) : List SourcePos :=
  cs.filterMap fun x => (d.origin x.1 x.2.pos).toOption

theorem sources_declare (resolve : Resolver) (d : Declarations) (c : Declaration)
    (cs : List (Resolver × Declaration)) : (d.declare resolve c).2.sources cs = d.sources cs := by
  simp only [sources, origin_declare]

theorem sources_cons {x : Resolver × Declaration} {s : SourcePos}
    (h : d.origin x.1 x.2.pos = .ok s) : d.sources (x :: cs) = s :: d.sources cs :=
  List.filterMap_cons_some (by rw [h]; rfl)

/-- Each of them is declared under its number, at what it comes from. -/
theorem exists_declared (h : d.answers cs = ids.map .ok) {k : Nat} {x : Resolver × Declaration}
    (hx : cs[k]? = some x) :
    ∃ id s, ids[k]? = some id ∧ d.origin x.1 x.2.pos = .ok s ∧
      x.2.numbered id s ∈ d.declared cs := by
  induction cs generalizing d ids k with
  | nil => cases hx
  | cons first cs ih =>
    rcases answers_cons_eq_map h with ⟨id, rest, rfl, hid, hrest⟩
    cases k with
    | zero =>
      cases hx
      rcases of_declare_ok hid with ⟨-, -, s, hsource, -, hdeclared⟩
      refine ⟨id, s, rfl, hsource, ?_⟩
      rw [declared, hdeclared]
      exact List.mem_append_left _ (List.mem_singleton_self _)
    | succ k =>
      rcases ih hrest hx with ⟨id', s, hid', hsource, hmem⟩
      rw [origin_declare] at hsource
      exact ⟨id', s, hid', hsource, List.mem_append_right _ hmem⟩

theorem le_maxOperand_of_answers (h : d.answers cs = ids.map .ok) {id : Nat} (hid : id ∈ ids) :
    id ≤ Event.maxOperand := by
  induction cs generalizing d ids with
  | nil =>
    rw [List.map_eq_nil_iff.1 h.symm] at hid
    cases hid
  | cons x cs ih =>
    rcases answers_cons_eq_map h with ⟨first, rest, rfl, hfirst, hrest⟩
    rcases List.mem_cons.1 hid with rfl | hid
    · exact (of_declare_ok hfirst).2.1
    · exact ih hrest hid

theorem origin_of_declared? {y : Declared} (h : d.declared? resolve c = some y) :
    d.origin resolve c.pos = .ok y.source := by
  unfold declared? at h
  unfold origin
  split at h
  · next source _ hresolve =>
    cases h
    rw [hresolve]
    cases c <;> rfl
  · cases h

/-- What is declared is at one of the places that positions come from. -/
theorem source_mem_sources {y : Declared} (hy : y ∈ d.declared cs) : y.source ∈ d.sources cs := by
  induction cs generalizing d with
  | nil => cases hy
  | cons x cs ih =>
    rcases List.mem_append.1 hy with hfirst | hrest
    · rw [sources_cons (origin_of_declared? (Option.mem_toList.1 hfirst))]
      exact List.mem_cons_self
    · have hmem := ih hrest
      rw [sources_declare] at hmem
      rw [sources, List.filterMap_cons]
      split
      · exact hmem
      · exact List.mem_cons_of_mem _ hmem

/-- A path is listed where it first comes up. -/
theorem append_unlisted {used : List String} (h : d.paths = used.eraseDups) (path : String) :
    d.paths ++ d.unlisted path = (used ++ [path]).eraseDups := by
  rw [eraseDups_concat, unlisted, h]
  simp only [List.mem_eraseDups]
  by_cases hused : path ∈ used
  · rw [if_pos hused, if_pos hused, List.append_nil]
  · rw [if_neg hused, if_neg hused]

theorem paths_run_eq (h : d.answers cs = ids.map .ok) {used : List String}
    (hused : d.paths = used.eraseDups) :
    (d.run cs).paths = (used ++ (d.sources cs).map (·.path)).eraseDups := by
  induction cs generalizing d ids used with
  | nil =>
    rw [sources, List.filterMap_nil, List.map_nil, List.append_nil]
    exact hused
  | cons x cs ih =>
    rcases answers_cons_eq_map h with ⟨id, rest, rfl, hid, hrest⟩
    rcases of_declare_ok hid with ⟨-, -, s, hsource, hpaths, -⟩
    -- the paths used so far have the path of the first declaration at their end now
    rw [append_unlisted hused] at hpaths
    have hrun := ih hrest hpaths
    rw [sources_declare, List.append_assoc] at hrun
    rw [sources_cons hsource]
    exact hrun

theorem unlisted_subset (d : Declarations) (path : String) : d.unlisted path ⊆ [path] := by
  unfold unlisted
  split
  · exact List.nil_subset _
  · exact List.Subset.refl _

theorem paths_declare_subset (x : Resolver × Declaration) :
    (d.declare x.1 x.2).2.paths ⊆ d.paths ++ (d.sources [x]).map (·.path) := by
  have h := declaring x.1 d x.2
  rcases x with ⟨resolve, c⟩
  generalize d.declare resolve c = out at h
  cases h with
  | manyFunctions | lostFunction | lostBlock => exact List.subset_append_left _ _
  | function _ hsource | undeclared hsource | manyBlocks hsource | block hsource =>
    rw [sources_cons hsource]
    exact List.append_subset.2 ⟨List.subset_append_left _ _,
      List.Subset.trans (unlisted_subset d _) (List.subset_append_right _ _)⟩

/-- Whether or not they succeed, declarations list no path but those that come up. -/
theorem paths_run_subset (d : Declarations) (cs : List (Resolver × Declaration)) :
    (d.run cs).paths ⊆ d.paths ++ (d.sources cs).map (·.path) := by
  induction cs generalizing d with
  | nil => exact List.subset_append_left _ _
  | cons x cs ih =>
    have hsources : d.sources ([x] ++ cs) = d.sources [x] ++ d.sources cs :=
      List.filterMap_append
    rw [List.singleton_append] at hsources
    have hrun := ih (d.declare x.1 x.2).2
    rw [sources_declare] at hrun
    rw [hsources, List.map_append, ← List.append_assoc]
    exact List.Subset.trans hrun (List.append_subset.2
      ⟨List.Subset.trans (paths_declare_subset x) (List.subset_append_left _ _),
        List.subset_append_right _ _⟩)

end Declarations

/-! ## The table of a register -/

namespace Register

/-- Declarations that all succeed are numbered without gaps, functions on their own and the blocks
of each function on their own, by numbers that a trace can hold.  The paths that come up are listed
once each, in the order in which they do.  The table uses no other paths, so that it can be read
back, and each number stays where it was declared, whatever is declared afterwards. -/
theorem run_of_answers_ok (generated : String) {cs : List (Resolver × Declaration)}
    {ids : List Nat} (hok : (start generated).answers cs = ids.map .ok)
    (hroom : (((Declarations.start generated).sources cs).map (·.path)).eraseDups.length
      < 0x100000000) :
    let d := Declarations.start generated
    let r := (start generated).run cs
    (∀ owner, Declaration.idsOf owner cs ids
        = List.range (Declaration.idsOf owner cs ids).length) ∧
      (∀ id ∈ ids, id ≤ Event.maxOperand ∧ Event.checkOperand id = .ok ()) ∧
      (r.paths.Nodup ∧ r.paths = ((d.sources cs).map (·.path)).eraseDups) ∧
      (r.table.Valid ∧ Table.unpack r.table.pack = .ok r.table ∧
        ((∀ s ∈ d.sources cs, s.pos.Fits) → Table.ofBytes r.table.toBytes = .ok r.table)) ∧
      ∀ (k : Nat) (x : Resolver × Declaration), cs[k]? = some x →
        ∃ id s, ids[k]? = some id ∧ d.origin x.1 x.2.pos = .ok s ∧
          let y := x.2.numbered id s
          r.table.locate y.function y.block = ⟨y.function, y.block, some s⟩ := by
  intro d r
  have hdeclares := Declarations.declares_run generated cs
  -- the room is known for the paths that come up, and no others are listed
  have hsubset : (d.run cs).paths ⊆ ((d.sources cs).map (·.path)).eraseDups := by
    intro path hpath
    exact List.mem_eraseDups.2 (Declarations.paths_run_subset d cs hpath)
  have hlength : (d.run cs).paths.length < 0x100000000 := by
    calc (d.run cs).paths.length
        ≤ ((d.sources cs).map (·.path)).eraseDups.length :=
          (List.subperm_of_subset hdeclares.distinct hsubset).length_le
      _ < 0x100000000 := hroom
  rcases (sound_start generated).run hlength with ⟨hanswers, hstate, -⟩
  have hall : d.answers cs = ids.map .ok := hanswers.symm.trans hok
  have hpaths : r.paths = ((d.sources cs).map (·.path)).eraseDups := by
    rw [hstate]
    have hnone : d.paths = ([] : List String).eraseDups := rfl
    exact Declarations.paths_run_eq hall hnone
  have htable : r.table = (d.run cs).table := congrArg Declarations.table hstate
  rw [htable]
  refine ⟨?_, ?_, ⟨hpaths ▸ nodup_eraseDups _, hpaths⟩,
    ⟨hdeclares.valid, Table.unpack_pack hdeclares.valid, ?_⟩, ?_⟩
  · intro owner
    have hnone : d.next owner = 0 := by
      cases owner <;> rfl
    have hrange := Declarations.idsOf_run hall owner
    rwa [hnone, ← List.range_eq_range'] at hrange
  · intro id hid
    have hle := Declarations.le_maxOperand_of_answers hall hid
    exact ⟨hle, Event.checkOperand_ok hle⟩
  · intro hfits
    refine hdeclares.ofBytes_toBytes hlength ?_
    intro y hy
    exact hfits _ (Declarations.source_mem_sources hy)
  · intro k x hx
    rcases Declarations.exists_declared hall hx with ⟨id, s, hid, hsource, hmem⟩
    have hsame : (x.2.numbered id s).source = s := by
      cases x.2 <;> rfl
    have hlocate := hdeclares.locate_of_mem hmem
    rw [hsame] at hlocate
    exact ⟨id, s, hid, hsource, hlocate⟩

/-- Two functions, and blocks of both in turn, with a line of the generated file that comes from
nowhere. -/
theorem run_of_answers_ok_twoLines :
    let cs := [Declaration.function ⟨1, 0⟩, .function ⟨0, 2⟩, .block 1 ⟨0, 4⟩, .block 0 ⟨7, 3⟩,
      .block 1 ⟨1, 8⟩].map fun c => (Declarations.twoLines, c)
    let ids := [0, 1, 0, 0, 1]
    let r := (start "out.js").run cs
    (start "out.js").answers cs = ids.map .ok ∧
      Declaration.idsOf (some 1) cs ids = [0, 1] ∧
      r.paths = ["b.ts", "a.ts", "out.js"] ∧
      Table.ofBytes r.table.toBytes = .ok r.table ∧
      r.table.locate 0 (some 0) = ⟨0, some 0, some ⟨"out.js", ⟨7, 3⟩⟩⟩ ∧
      r.table.locate 1 (some 1) = ⟨1, some 1, some ⟨"b.ts", ⟨6, 0⟩⟩⟩ := by
  intro cs ids r
  have hok : (start "out.js").answers cs = ids.map .ok := rfl
  rcases run_of_answers_ok "out.js" hok (by decide) with
    ⟨hids, -, ⟨-, hpaths⟩, ⟨-, -, hbytes⟩, hplaces⟩
  have hfits : ∀ s ∈ (Declarations.start "out.js").sources cs,
      s.pos.line < 0x100000000 ∧ s.pos.column < 0x100000000 := by
    decide
  refine ⟨hok, hids (some 1), hpaths.trans rfl,
    hbytes fun s hs => ⟨(hfits s hs).1, (hfits s hs).2⟩, ?_, ?_⟩
  · rcases hplaces 3 _ rfl with ⟨id, s, hid, hsource, hlocate⟩
    cases hid
    cases hsource
    exact hlocate
  · rcases hplaces 4 _ rfl with ⟨id, s, hid, hsource, hlocate⟩
    cases hid
    cases hsource
    exact hlocate

end Register

end Retrace
