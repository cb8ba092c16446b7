import Retrace.Proofs.Json.Scan
import Retrace.Proofs.Trace.History

/-!
# Refused — what a call that fails leaves behind

A call can fail because a number does not fit, because the supplier has no table, or because the
table is too long.  The first two happen before anything is written.  The third is noticed when the
module has been named already.

* `Recorder.Alike` — two recorders have written the same and keep the same in mind;
* `Recorder.Alike.run` — they write the same from then on, if their suppliers answer the same;
* `Recorder.record_refused` — a call that fails leaves the recorder alike, a long table apart.
-/

namespace Retrace

namespace Recorder

variable {σ τ : Type} {ask : Supplier σ} {ask' : Supplier τ} {r : Recorder σ} {r' : Recorder τ}
  {c : Call}

/-! ## Recorders that are alike -/

/-- The recorders differ in their suppliers alone. -/
structure Alike (r : Recorder σ) (r' : Recorder τ) : Prop where
  bytes : r'.bytes = r.bytes
  active : r'.active = r.active
  known : r'.known = r.known

/-- A new module has its table asked for. -/
theorem answers_enter {m f : Nat} (hf : f ≤ Event.maxOperand) (hactive : r.active ≠ some m)
    (hm : m ≤ Event.maxOperand) (hknown : m ∉ r.known) :
    (r.outcome ask (.enter m f)).answers = [(m, (ask r.supply m).1)] := by
  have houtcome : (r.outcome ask (.enter m f)).answers
      = (r.noting.record ask.noted (.enter m f)).2.supply.2 := rfl
  rw [houtcome]
  rcases hask : ask r.supply m with ⟨answer, supply⟩
  have hnoted : ask.noted r.noting.supply m = (answer, supply, [(m, answer)]) := by
    simp only [Supplier.noted, noting, hask, List.nil_append]
  cases answer with
  | error e => rw [(Records.refused (r := r.noting) hf hactive hm hknown hnoted).eq]
  | ok table =>
    by_cases hsmall : table.toBytes.length < 0x100000000
    · rw [(Records.first (r := r.noting) hf hactive hm hknown hnoted hsmall).eq]
    · rw [(Records.largeTable (r := r.noting) hf hactive hm hknown hnoted hsmall).eq]

/-- So that the answers noted down are all that matters of a supplier. -/
theorem exists_ask_of_answers {m f : Nat} {answer : Except Error Table} {supply : σ}
    (hanswers : (r'.outcome ask' (.enter m f)).answers = (r.outcome ask (.enter m f)).answers)
    (h : Alike r r') (hf : f ≤ Event.maxOperand) (hactive : r.active ≠ some m)
    (hm : m ≤ Event.maxOperand) (hknown : m ∉ r.known) (hask : ask r.supply m = (answer, supply)) :
    ∃ supply', ask' r'.supply m = (answer, supply') := by
  rw [answers_enter hf hactive hm hknown, hask,
    answers_enter hf (h.active ▸ hactive) hm (h.known ▸ hknown)] at hanswers
  rcases hask' : ask' r'.supply m with ⟨answer', supply'⟩
  rw [hask'] at hanswers
  cases hanswers
  exact ⟨supply', rfl⟩

theorem Alike.record (h : Alike r r')
    (hanswers : (r'.outcome ask' c).answers = (r.outcome ask c).answers) :
    (r'.record ask' c).1 = (r.record ask c).1 ∧
      Alike (r.record ask c).2 (r'.record ask' c).2 := by
  have hcases := record_records ask r c
  generalize r.record ask c = out at hcases
  cases hcases with
  | ret =>
    rw [Records.ret.eq]
    exact ⟨rfl, congrArg (· ++ _) h.bytes, h.active, h.known⟩
  | block hid =>
    rw [(Records.block hid).eq]
    exact ⟨rfl, congrArg (· ++ _) h.bytes, h.active, h.known⟩
  | largeBlock hid =>
    rw [(Records.largeBlock hid).eq]
    exact ⟨rfl, h⟩
  | largeFunction hf =>
    rw [(Records.largeFunction hf).eq]
    exact ⟨rfl, h⟩
  | stay hf hactive =>
    rw [(Records.stay hf (h.active ▸ hactive)).eq]
    exact ⟨rfl, congrArg (· ++ _) h.bytes, h.active, h.known⟩
  | largeModule hf hactive hm =>
    rw [(Records.largeModule hf (h.active ▸ hactive) hm).eq]
    exact ⟨rfl, h⟩
  | back hf hactive hm hknown =>
    rw [(Records.back hf (h.active ▸ hactive) hm (h.known ▸ hknown)).eq]
    exact ⟨rfl, congrArg (· ++ _ ++ _) h.bytes, rfl, h.known⟩
  -- the rest ask for the table, and get the same answer
  | refused hf hactive hm hknown hask =>
    rcases exists_ask_of_answers hanswers h hf hactive hm hknown hask with ⟨supply', hask'⟩
    rw [(Records.refused hf (h.active ▸ hactive) hm (h.known ▸ hknown) hask').eq]
    exact ⟨rfl, h.bytes, h.active, h.known⟩
  | largeTable hf hactive hm hknown hask hlarge =>
    rcases exists_ask_of_answers hanswers h hf hactive hm hknown hask with ⟨supply', hask'⟩
    rw [(Records.largeTable hf (h.active ▸ hactive) hm (h.known ▸ hknown) hask' hlarge).eq]
    exact ⟨rfl, congrArg (· ++ _) h.bytes, rfl, h.known⟩
  | first hf hactive hm hknown hask hsmall =>
    rcases exists_ask_of_answers hanswers h hf hactive hm hknown hask with ⟨supply', hask'⟩
    rw [(Records.first hf (h.active ▸ hactive) hm (h.known ▸ hknown) hask' hsmall).eq]
    exact ⟨rfl, congrArg (· ++ _ ++ _ ++ _) h.bytes, rfl, congrArg (List.cons _) h.known⟩

theorem outcome_eq (ask : Supplier σ) (r : Recorder σ) (c : Call) :
    r.outcome ask c = ⟨c, (r.record ask c).1, (r.outcome ask c).answers⟩ := by
  rw [← outcome_result]
  rfl

/-- Alike recorders write the same from then on, if they are given the same answers. -/
theorem Alike.run (h : Alike r r') {calls : List Call}
    (hanswers : (r'.outcomes ask' calls).map Outcome.answers
      = (r.outcomes ask calls).map Outcome.answers) :
    r'.outcomes ask' calls = r.outcomes ask calls ∧
      Alike (r.run ask calls) (r'.run ask' calls) := by
  induction calls generalizing r r' with
  | nil => exact ⟨rfl, h⟩
  | cons c calls ih =>
    rw [outcomes, outcomes, List.map_cons, List.map_cons, List.cons.injEq] at hanswers
    rcases hanswers with ⟨hfirst, hlater⟩
    rcases h.record hfirst with ⟨hresult, hnext⟩
    rcases ih hnext hlater with ⟨houtcomes, hrun⟩
    refine ⟨?_, hrun⟩
    rw [outcomes, outcomes, houtcomes, outcome_eq ask' r', outcome_eq ask r, hresult, hfirst]

/-! ## Calls that fail -/

/-- The module is named and the active one, but its table is not written. -/
structure Named (m : Nat) (r : Recorder σ) (r' : Recorder τ) : Prop where
  bytes : r'.bytes = r.bytes ++ (Event.setModule m).bytes
  active : r'.active = some m
  known : r'.known = r.known
  missing : m ∉ r.known

/-- The next call of the module is written without a table, too. -/
theorem Named.bytes_enter {m g : Nat} (h : Named m r r') (hg : g ≤ Event.maxOperand) :
    (r'.record ask' (.enter m g)).2.bytes
      = r.bytes ++ (Event.setModule m).bytes ++ (Event.call g).bytes := by
  rw [(Records.stay hg h.active).eq, ← h.bytes]

/-- A call that fails leaves the recorder alike, or it was given a table that is too long. -/
theorem alike_or_named {e : Error} (herror : (r.record ask c).1 = .error e) :
    ((r.outcome ask c).Small ∧ Alike r (r.record ask c).2) ∨
      ∃ m f table, c = .enter m f ∧ (m, .ok table) ∈ (r.outcome ask c).answers ∧
        e = .valueTooLarge table.toBytes.length ∧ ¬ table.toBytes.length < 0x100000000 ∧
          Named m r (r.record ask c).2 := by
  have hcases := record_records ask.noted r.noting c
  have hforget : r.record ask c = _ := forget_record ask r.noting c
  have houtcome : r.outcome ask c
      = ⟨c, (r.noting.record ask.noted c).1, (r.noting.record ask.noted c).2.supply.2⟩ := rfl
  rw [hforget] at herror ⊢
  rw [houtcome]
  generalize r.noting.record ask.noted c = out at hcases herror
  cases hcases with
  | ret | block | stay | back | first => cases herror
  | largeBlock | largeFunction | largeModule =>
    -- noticed before anything is done
    refine .inl ⟨?_, rfl, rfl, rfl⟩
    intro m table hm
    cases hm
  | refused hf hactive hm hknown hask =>
    refine .inl ⟨?_, rfl, rfl, rfl⟩
    intro m table hmem
    simp only [noted_eq hask, List.mem_singleton, Prod.mk.injEq, reduceCtorEq, and_false] at hmem
  | @largeTable m f table supply hf hactive hm hknown hask hlarge =>
    refine .inr ⟨m, f, table, rfl, ?_, ?_, hlarge, rfl, rfl, rfl, hknown⟩
    · simp only [noted_eq hask, List.mem_singleton]
    · cases herror
      rfl

/-- Unless it is given a table that is too long, a call that fails leaves the recorder alike, so
that later calls are answered and written as if it had not been made.  A table that is too long
leaves its module named. -/
theorem record_refused (ask : Supplier σ) (r : Recorder σ) (c : Call) {e : Error}
    (herror : (r.record ask c).1 = .error e) :
    ((r.outcome ask c).Small →
      Alike r (r.record ask c).2 ∧
        ∀ {τ : Type} (ask' : Supplier τ) (supply : τ) (calls : List Call),
          (({ r with supply := supply } : Recorder τ).outcomes ask' calls).map Outcome.answers
              = ((r.record ask c).2.outcomes ask calls).map Outcome.answers →
            (({ r with supply := supply } : Recorder τ).outcomes ask' calls)
                = (r.record ask c).2.outcomes ask calls ∧
              (({ r with supply := supply } : Recorder τ).run ask' calls).bytes
                = ((r.record ask c).2.run ask calls).bytes) ∧
      (¬ (r.outcome ask c).Small →
        ∃ m f table, c = .enter m f ∧ (m, .ok table) ∈ (r.outcome ask c).answers ∧
          e = .valueTooLarge table.toBytes.length ∧ Named m r (r.record ask c).2 ∧
            ∀ g ≤ Event.maxOperand,
              ((r.record ask c).2.record ask (.enter m g)).2.bytes
                = r.bytes ++ (Event.setModule m).bytes ++ (Event.call g).bytes) := by
  rcases alike_or_named herror with
    ⟨hsmall, halike⟩ | ⟨m, f, table, hc, hanswer, he, hlarge, hnamed⟩
  · refine ⟨fun _ => ⟨halike, ?_⟩, fun hno => absurd hsmall hno⟩
    intro τ ask' supply calls hanswers
    -- had the call not been made, the recorder would be as it was
    have hsame : Alike (r.record ask c).2 ({ r with supply := supply } : Recorder τ) :=
      ⟨halike.bytes.symm, halike.active.symm, halike.known.symm⟩
    rcases hsame.run hanswers with ⟨houtcomes, hrun⟩
    exact ⟨houtcomes, hrun.bytes⟩
  · refine ⟨fun hsmall => absurd (hsmall m table hanswer) hlarge, fun _ => ?_⟩
    exact ⟨m, f, table, hc, hanswer, he, hnamed, fun g hg => hnamed.bytes_enter hg⟩

/-- A supplier that does not know the module, and one that is ready by then. -/
theorem record_refused_failsOnce :
    ((start false).record failsOnce (.enter 3 1)).1 = .error (.fileError "busy") ∧
      (((start false).record failsOnce (.enter 3 1)).2.run failsOnce [.enter 3 1, .block 300]).bytes
        = ((start ()).run (fun _ _ => (.ok ⟨[], []⟩, ())) [.enter 3 1, .block 300]).bytes := by
  have herror : ((start false).record failsOnce (.enter 3 1)).1 = .error (.fileError "busy") := rfl
  have hsmall : ((start false).outcome failsOnce (.enter 3 1)).Small := by
    have houtcome : (start false).outcome failsOnce (.enter 3 1)
        = ⟨.enter 3 1, .error (.fileError "busy"), [(3, .error (.fileError "busy"))]⟩ := rfl
    rw [houtcome]
    intro m table hm
    simp at hm
  refine ⟨herror, ?_⟩
  have hlater := ((record_refused failsOnce (start false) (.enter 3 1) herror).1 hsmall).2
    (fun _ _ => (.ok ⟨[], []⟩, ())) () [.enter 3 1, .block 300] rfl
  exact hlater.2.symm

/-! ## A table that is too long -/

/-- A table that lists one path of `n` letters. -/
def longPath (n : Nat) : Table := ⟨[String.ofList (List.replicate n 'a')], []⟩

theorem length_toBytes_longPath (n : Nat) : (longPath n).toBytes.length = n + 33 := by
  have hletters :
      (Utf8.encode ((List.replicate n 'a').flatMap Json.escapeChar)).length = n := by
    induction n with
    | zero => rfl
    | succ n ih =>
      have hletter : (Utf8.encode (Json.escapeChar 'a')).length = 1 := by decide
      rw [List.replicate_succ, List.flatMap_cons, Utf8.encode_append, List.length_append, ih,
        hletter, Nat.add_comm]
  have htext : (longPath n).pack.toJson.compactChars
      = "\x7b\"sourcePaths\":[\"".toList ++ (List.replicate n 'a').flatMap Json.escapeChar
        ++ "\"],\"fnInfos\":[]\x7d".toList := by
    have hjson : (longPath n).pack.toJson
        = .obj [("sourcePaths", .arr [.str (String.ofList (List.replicate n 'a'))]),
          ("fnInfos", .arr [])] := rfl
    have hpaths : Json.quote "sourcePaths" = "\"sourcePaths\"".toList := by decide
    have hinfos : Json.quote "fnInfos" = "\"fnInfos\"".toList := by decide
    rw [hjson, Json.compactChars, Json.compactFields, Json.compactFields, Json.compactChars,
      Json.compactItems, Json.compactChars, Json.compactChars, Json.compactItems, hpaths, hinfos,
      Json.quote]
    simp
  have hfront : (Utf8.encode "\x7b\"sourcePaths\":[\"".toList).length = 17 := by decide
  have hback : (Utf8.encode "\"],\"fnInfos\":[]\x7d".toList).length = 16 := by decide
  rw [Table.toBytes, Table.toText, Utf8.ofString, Json.compact, String.toList_ofList, htext,
    Utf8.encode_append, Utf8.encode_append, List.length_append, List.length_append, hletters,
    hfront, hback]
  omega

/-- A call can fail and leave its module named, which the next call relies on. -/
theorem longPath_leaves_module_named :
    let ask : Supplier Unit := fun _ _ => (.ok (longPath 0x100000000), ())
    (start ()).record ask (.enter 7 0)
        = (.error (.valueTooLarge 0x100000021), ⟨(), [0x07], some 7, []⟩) ∧
      ((start ()).run ask [.enter 7 0, .enter 7 0]).bytes = [0x07, 0x40] := by
  intro ask
  have hlength : (longPath 0x100000000).toBytes.length = 0x100000021 := length_toBytes_longPath _
  have hlarge : ¬ (longPath 0x100000000).toBytes.length < 0x100000000 := by
    rw [hlength]
    decide
  have hrecords : Records ask (start ()) (.enter 7 0)
      (.error (.valueTooLarge (longPath 0x100000000).toBytes.length),
        ⟨(), [] ++ (Event.setModule 7).bytes, some 7, []⟩) :=
    .largeTable (by decide) (by decide) (by decide) (by decide) rfl hlarge
  have hfirst := hrecords.eq
  rw [hlength] at hfirst
  -- the module is the active one now, so that nobody asks for its table
  have hstay : Records ask ⟨(), [0x07], some 7, []⟩ (.enter 7 0)
      (.ok (), ⟨(), [0x07] ++ (Event.call 0).bytes, some 7, []⟩) :=
    .stay (by decide) rfl
  refine ⟨hfirst, ?_⟩
  rw [run_cons, hfirst, run_cons]
  exact congrArg (fun out => out.2.bytes) hstay.eq

end Recorder

end Retrace
