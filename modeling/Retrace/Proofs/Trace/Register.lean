import Retrace.Proofs.Trace.Stranded

/-!
# Register — declarations with an index of their paths

A register finds the number of a path in an index, and cuts the lengths of its lists to 32 bits
where it numbers by them.  No function and no block gets a number that large, and while there are
fewer paths than that a register does what declarations do.

* `Register.Sound` — the index and the list of paths lead to one another, and no number is cut;
* `Register.Sound.declare` — each declaration is answered as it is without the index;
* `Register.Sound.run` — and so are any declarations, while all paths can be numbered;
* `Register.leaves_of_refused` — what is left of a declaration that is refused.
-/

namespace Retrace

namespace Register

variable {r : Register} {cs : List (Resolver × Declaration)}

def declare (resolve : Resolver) (r : Register) : Declaration → Except Error Nat × Register
  | .function p => r.function resolve p
  | .block f p => r.block resolve f p

def run (r : Register) (cs : List (Resolver × Declaration)) : Register :=
  cs.foldl (fun r x => (r.declare x.1 x.2).2) r

def answers (r : Register) : List (Resolver × Declaration) → List (Except Error Nat)
  | [] => []
  | x :: rest => (r.declare x.1 x.2).1 :: (r.declare x.1 x.2).2.answers rest

/-! ## Keeping to the index -/

/-- The index and the list of paths lead to one another, and no more has been numbered than can
be. -/
structure Sound (r : Register) : Prop where
  index : ∀ path i, r.indices.lookup path = some i ↔ r.paths[i]? = some path
  functions : r.functions.length ≤ Event.maxOperand + 1
  blocks : ∀ entry ∈ r.functions, entry.blocks.length ≤ Event.maxOperand + 1

/-- A register answers as declarations do, and is left with the same ones. -/
structure Agrees {α : Type} (out : α × Register) (out' : α × Declarations) : Prop where
  answer : out.1 = out'.1
  state : out.2.toDeclarations = out'.2
  sound : out.2.Sound

theorem sound_start (generated : String) : (start generated).Sound := by
  refine ⟨fun path i => ?_, Nat.zero_le _, ?_⟩
  · constructor
    · intro h
      cases h
    · intro h
      cases h
  · intro entry hentry
    cases hentry

/-- A new path is found at the end of the list, and every other one where it was. -/
theorem Sound.index_concat (h : r.Sound) {path : String} (hnew : path ∉ r.paths) (other : String)
    (i : Nat) : ((path, r.paths.length) :: r.indices).lookup other = some i ↔
      (r.paths ++ [path])[i]? = some other := by
  by_cases hother : other = path
  · subst hother
    rw [List.lookup_cons_self, Option.some.injEq]
    constructor
    · rintro rfl
      exact List.getElem?_concat_length
    · intro hplace
      rcases List.getElem?_eq_some_iff.1 hplace with ⟨hlt, -⟩
      rw [List.length_append, List.length_singleton] at hlt
      refine Nat.le_antisymm (Nat.le_of_not_lt fun hbefore => hnew ?_) (Nat.le_of_lt_succ hlt)
      rw [List.getElem?_append_left hbefore] at hplace
      exact List.mem_of_getElem? hplace
  · have hskip : ((path, r.paths.length) :: r.indices).lookup other = r.indices.lookup other := by
      rw [List.lookup_cons, beq_false_of_ne hother]
    rw [hskip, h.index]
    rcases Nat.lt_trichotomy i r.paths.length with hi | rfl | hi
    · rw [List.getElem?_append_left hi]
    · rw [List.getElem?_concat_length, List.getElem?_eq_none (Nat.le_refl _)]
      simpa using Ne.symm hother
    · rw [List.getElem?_eq_none (Nat.le_of_lt hi), List.getElem?_eq_none]
      rw [List.length_append, List.length_singleton]
      exact hi

/-- A path gets the number of its place. -/
theorem Sound.addPath (h : r.Sound) (hroom : r.paths.length < 0x100000000) (path : String) :
    Agrees (r.addPath path) (r.toDeclarations.addPath path) := by
  unfold Register.addPath Declarations.addPath
  cases hlookup : r.indices.lookup path with
  | some i =>
    have hplace := (h.index path i).1 hlookup
    have hidx : r.paths.idxOf? path = some i := by
      rcases List.getElem?_eq_some_iff.1 hplace with ⟨hlt, hget⟩
      refine List.idxOf?_eq_some_iff.2 ⟨hlt, hget, fun j hj hsame => ?_⟩
      -- an earlier place would be the number that is found
      have hfound := (h.index path j).2 (List.getElem?_eq_some_iff.2 ⟨Nat.lt_trans hj hlt, hsame⟩)
      rw [hlookup] at hfound
      exact absurd (Option.some.inj hfound) (Nat.ne_of_gt hj)
    rw [hidx]
    exact ⟨rfl, rfl, h⟩
  | none =>
    have hnew : path ∉ r.paths := by
      intro hmem
      rcases List.getElem?_of_mem hmem with ⟨i, hi⟩
      have hfound := (h.index path i).2 hi
      rw [hlookup] at hfound
      cases hfound
    rw [List.idxOf?_eq_none_iff.2 hnew, Nat.mod_eq_of_lt hroom]
    exact ⟨rfl, rfl, ⟨h.index_concat hnew, h.functions, h.blocks⟩⟩

/-! ## Declaring -/

theorem locate_eq (resolve : Resolver) (r : Register) (p : Pos) :
    r.locate resolve p = (r.toDeclarations.origin resolve p).map fun s =>
      (⟨s.pos, (r.addPath s.path).1⟩, (r.addPath s.path).2) := by
  unfold Register.locate Declarations.origin
  cases resolve p with
  | error e => rfl
  | ok source => rfl

/-- Numbers that have been handed out so far are not cut. -/
theorem mod_eq_of_le {length : Nat} (h : length ≤ Event.maxOperand + 1) :
    length % 0x100000000 = length := by
  refine Nat.mod_eq_of_lt (Nat.lt_of_le_of_lt h ?_)
  decide

/-- Listing a path keeps the functions. -/
theorem Sound.state_addPath (h : r.Sound) (hroom : r.paths.length < 0x100000000) (path : String) :
    (r.addPath path).2.toDeclarations
      = { r.toDeclarations with paths := r.paths ++ r.unlisted path } := by
  rw [(h.addPath hroom path).state, (r.toDeclarations.addPath_eq path).1]

theorem Sound.index_addPath (h : r.Sound) (hroom : r.paths.length < 0x100000000)
    (path other : String) (i : Nat) : (r.addPath path).2.indices.lookup other = some i ↔
      (r.paths ++ r.unlisted path)[i]? = some other := by
  rw [(h.addPath hroom path).sound.index, h.state_addPath hroom path]

/-- Each declaration is answered as it is without the index. -/
theorem Sound.declare (h : r.Sound) (hroom : r.paths.length < 0x100000000) (resolve : Resolver)
    (c : Declaration) :
    Agrees (r.declare resolve c) (r.toDeclarations.declare resolve c) := by
  have hfunctions := mod_eq_of_le h.functions
  have hstate := h.state_addPath hroom
  have hc := Declarations.declaring resolve r.toDeclarations c
  generalize r.toDeclarations.declare resolve c = out at hc
  -- the register looks at the same things in the same order
  cases hc with
  | manyFunctions hid =>
    simp only [Register.declare, Register.function, hfunctions, Event.checkOperand_error hid]
    exact ⟨rfl, rfl, h⟩
  | lostFunction hid hsource =>
    simp only [Register.declare, Register.function, hfunctions, Event.checkOperand_ok hid,
      locate_eq, hsource, Except.map]
    exact ⟨rfl, rfl, h⟩
  | @function p s hid hsource =>
    have hpath := (h.addPath hroom s.path).answer
    simp only [Register.declare, Register.function, hfunctions, Event.checkOperand_ok hid,
      locate_eq, hsource, Except.map, hstate, hpath]
    refine ⟨rfl, rfl, h.index_addPath hroom s.path, ?_, fun entry hentry => ?_⟩
    · rw [List.length_append, List.length_singleton]
      exact Nat.succ_le_succ hid
    · rcases List.mem_append.1 hentry with hold | hnew
      · exact h.blocks entry hold
      · cases List.mem_singleton.1 hnew
        exact Nat.zero_le _
  | lostBlock hsource =>
    simp only [Register.declare, Register.block, locate_eq, hsource, Except.map]
    exact ⟨rfl, rfl, h⟩
  | @undeclared f p s hsource hentry =>
    simp only [Register.declare, Register.block, locate_eq, hsource, Except.map,
      hstate, hentry]
    exact ⟨rfl, hstate s.path, (h.addPath hroom s.path).sound⟩
  | @manyBlocks f p s entry hsource hentry hid =>
    have hblocks := mod_eq_of_le (h.blocks entry (List.mem_of_getElem? hentry))
    simp only [Register.declare, Register.block, locate_eq, hsource, Except.map,
      hstate, hentry, hblocks, Event.checkOperand_error hid]
    exact ⟨rfl, hstate s.path, (h.addPath hroom s.path).sound⟩
  | @block f p s entry hsource hentry hid =>
    have hpath := (h.addPath hroom s.path).answer
    have hblocks := mod_eq_of_le (h.blocks entry (List.mem_of_getElem? hentry))
    simp only [Register.declare, Register.block, locate_eq, hsource, Except.map,
      hstate, hentry, hblocks, Event.checkOperand_ok hid, hpath]
    refine ⟨rfl, rfl, h.index_addPath hroom s.path, ?_, fun other hother => ?_⟩
    · rw [List.length_set]
      exact h.functions
    · rcases List.mem_or_eq_of_mem_set hother with hold | rfl
      · exact h.blocks other hold
      · rw [List.length_append, List.length_singleton]
        exact Nat.succ_le_succ hid

/-- While all paths can be numbered, any declarations are answered as they are without the
index. -/
theorem Sound.run (h : r.Sound) (hroom : (r.toDeclarations.run cs).paths.length < 0x100000000) :
    r.answers cs = r.toDeclarations.answers cs ∧
      (r.run cs).toDeclarations = r.toDeclarations.run cs ∧ (r.run cs).Sound := by
  induction cs generalizing r with
  | nil => exact ⟨rfl, rfl, h⟩
  | cons x cs ih =>
    -- the list of paths only grows, so that the last one has room for all before it
    have hpaths := (Declarations.paths_run r.toDeclarations (x :: cs)).length_le
    have hstep := h.declare (Nat.lt_of_le_of_lt hpaths hroom) x.1 x.2
    have hrest := ih hstep.sound (by rw [hstep.state]; exact hroom)
    rw [hstep.state] at hrest
    rcases hrest with ⟨hanswers, hstate, hsound⟩
    refine ⟨?_, hstate, hsound⟩
    rw [answers, hstep.answer, hanswers]
    rfl

/-! ## A declaration that is refused -/

/-- Of a declaration that a register refuses, only the path that is stranded stays, while all paths can
be numbered. -/
theorem leaves_of_refused (generated : String) (before after : List (Resolver × Declaration))
    (resolve : Resolver) (c : Declaration) {r r' : Register} {e : Error}
    (hr : (start generated).run before = r) (herror : r.declare resolve c = (.error e, r'))
    (hroom : ((Declarations.start generated).run (before ++ (resolve, c) :: after)).paths.length
      < 0x100000000) :
    r'.toDeclarations = { r.toDeclarations with paths := r.paths ++ r.stranded resolve c } ∧
      r'.answers after = r.answers after ∧
      (∀ f b, (r'.run after).table.locate f b = (r.run after).table.locate f b) ∧
      (∀ a ∈ r.stranded resolve c, a ∈ (r'.run after).paths ∧
        (r'.run after).paths.erase a = (r.run after).paths.erase a) ∧
      ((r'.run after).table = (r.run after).table ↔
        r.paths ++ r.stranded resolve c <+: (r.run after).paths) := by
  -- the list of paths only grows, so that the last one has room for all before it
  have hgrown := Declarations.paths_run ((Declarations.start generated).run before)
    ((resolve, c) :: after)
  have hwhole : (Declarations.start generated).run (before ++ (resolve, c) :: after)
      = ((Declarations.start generated).run before).run ((resolve, c) :: after) :=
    List.foldl_append
  rw [hwhole] at hroom
  have hbefore := Nat.lt_of_le_of_lt hgrown.length_le hroom
  obtain ⟨-, hstate, hsound⟩ := (sound_start generated).run hbefore
  have hdeclares := Declarations.declares_run generated before
  have hsame : r.toDeclarations = (Declarations.start generated).run before := hr ▸ hstate
  rw [hr] at hsound
  rw [← hsame] at hdeclares hbefore hroom
  have hstep := hsound.declare hbefore resolve c
  rw [herror] at hstep
  have hrefused : r.toDeclarations.declare resolve c = (.error e, r'.toDeclarations) :=
    Prod.ext hstep.answer.symm hstep.state.symm
  have hleaves := hdeclares.leaves hrefused after
  -- both registers go on as their declarations do, and that of the refused one has more paths
  have hroom' : (r'.toDeclarations.run after).paths.length < 0x100000000 := by
    rw [hstep.state]
    exact hroom
  obtain ⟨hanswers, hrun, -⟩ := hsound.run (Nat.lt_of_le_of_lt hleaves.length_le hroom')
  obtain ⟨hanswers', hrun', -⟩ := hstep.sound.run hroom'
  have htable : (r.run after).table = (r.toDeclarations.run after).table := by rw [hrun]
  have htable' : (r'.run after).table = (r'.toDeclarations.run after).table := by rw [hrun']
  refine ⟨hleaves.state, ?_, ?_, ?_, ?_⟩
  · rw [hanswers, hanswers']
    exact hleaves.answers
  · rw [htable, htable']
    exact hleaves.locate
  · rw [hrun, hrun']
    exact hleaves.listed
  · rw [htable, htable', hrun]
    exact hleaves.table

end Register

end Retrace
