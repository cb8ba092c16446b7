import Retrace.Proofs.Trace.Recorder

/-!
# History — the trace of a run, told by its calls

A run is told from outside: what was called, what was answered, and what the supplier of tables was
asked meanwhile.  These outcomes alone say which events the trace consists of.

* `Recorder.outcomes` — the outcomes of a run;
* `Recorder.forget_record` — noting down the answers of the supplier changes nothing else;
* `Outcome.events`, `History.events` — the events that calls stand for;
* `Recorder.Follows` — the state of a recorder, in terms of the modules entered so far;
* `Recorder.decode_run` — the trace of a run reads as the events of its outcomes.
-/

namespace Retrace

/-! ## Outcomes -/

/-- A call with its answer and with what the supplier was asked, and answered, before that. -/
structure Outcome where
  call : Call
  result : Except Error Unit
  answers : List (Nat × Except Error Table)

/-- The supplier, noting down its answers. -/
def Supplier.noted {σ : Type} (ask : Supplier σ) :
    Supplier (σ × List (Nat × Except Error Table)) :=
  fun (supply, notes) m =>
    let (answer, supply) := ask supply m
    (answer, supply, notes ++ [(m, answer)])

namespace Recorder

variable {σ : Type}

/-- The same recorder with nothing noted down. -/
def noting (r : Recorder σ) : Recorder (σ × List (Nat × Except Error Table)) :=
  { r with supply := (r.supply, []) }

/-- The same recorder without the notes. -/
def forget (r : Recorder (σ × List (Nat × Except Error Table))) : Recorder σ :=
  { r with supply := r.supply.1 }

def outcome (ask : Supplier σ) (r : Recorder σ) (c : Call) : Outcome :=
  let (result, r') := r.noting.record ask.noted c
  ⟨c, result, r'.supply.2⟩

/-- What comes of each call of a run. -/
def outcomes (ask : Supplier σ) (r : Recorder σ) : List Call → List Outcome
  | [] => []
  | c :: rest => r.outcome ask c :: outcomes ask (r.record ask c).2 rest

/-! ### Notes -/

section Notes

variable (ask : Supplier σ) (r : Recorder (σ × List (Nat × Except Error Table)))

theorem forget_write (e : Event) :
    r.forget.write e = ((r.write e).1, (r.write e).2.forget) := by
  unfold write
  cases e.encode <;> rfl

theorem forget_switchTo (m : Nat) (payload? : Option (List UInt8)) :
    r.forget.switchTo m payload?
      = ((r.switchTo m payload?).1, (r.switchTo m payload?).2.forget) := by
  unfold switchTo
  rw [forget_write]
  rcases r.write (.setModule m) with ⟨_ | _, r₁⟩
  · rfl
  · cases payload? with
    | none => rfl
    | some payload =>
      have hactive : ({ r₁.forget with active := some m } : Recorder σ)
          = ({ r₁ with active := some m } :
              Recorder (σ × List (Nat × Except Error Table))).forget := rfl
      simp only [hactive, forget_write]
      rcases ({ r₁ with active := some m } :
        Recorder (σ × List (Nat × Except Error Table))).write (.table payload) with ⟨_ | _, r₂⟩
      · rfl
      · rfl

theorem forget_activate (m : Nat) :
    r.forget.activate ask m = ((r.activate ask.noted m).1, (r.activate ask.noted m).2.forget) := by
  unfold activate
  by_cases hactive : r.active = some m
  · have hforget : r.forget.active = some m := hactive
    rw [if_pos hactive, if_pos hforget]
  · have hforget : ¬ r.forget.active = some m := hactive
    rw [if_neg hactive, if_neg hforget]
    cases Event.checkOperand m with
    | error e => rfl
    | ok _ =>
      by_cases hknown : m ∈ r.known
      · have hforget : m ∈ r.forget.known := hknown
        simp only [if_pos hknown, if_pos hforget]
        exact forget_switchTo r m none
      · have hforget : m ∉ r.forget.known := hknown
        have hsupply : r.forget.supply = r.supply.1 := rfl
        simp only [if_neg hknown, if_neg hforget, hsupply, Supplier.noted]
        rcases ask r.supply.1 m with ⟨_ | table, supply⟩
        · rfl
        · exact forget_switchTo
            { r with supply := (supply, r.supply.2 ++ [(m, .ok table)]) } m (some table.toBytes)

/-- Noting down the answers of the supplier changes nothing else. -/
theorem forget_record (c : Call) :
    r.forget.record ask c = ((r.record ask.noted c).1, (r.record ask.noted c).2.forget) := by
  cases c with
  | enter m f =>
    simp only [record, enter]
    cases Event.checkOperand f with
    | error e => rfl
    | ok _ =>
      simp only [forget_activate]
      rcases r.activate ask.noted m with ⟨_ | _, r'⟩
      · rfl
      · exact forget_write r' (.call f)
  | block id => exact forget_write r (.block id)
  | ret => exact forget_write r .ret

end Notes

/-- The outcome of a call has the answer that the call gets. -/
theorem outcome_result (ask : Supplier σ) (r : Recorder σ) (c : Call) :
    (r.outcome ask c).result = (r.record ask c).1 := by
  have h := forget_record ask r.noting c
  exact (congrArg Prod.fst h).symm

end Recorder

/-! ## The events of a history -/

namespace Outcome

/-- The module that is entered, if the call succeeds. -/
def entered? (o : Outcome) : Option Nat :=
  match o.call, o.result with
  | .enter m _, .ok () => some m
  | _, _ => none

/-- The table that the supplier gave. -/
def table? (o : Outcome) : Option Table := o.answers.getLast?.bind (·.2.toOption)

/-- What a call writes, given the modules entered before. -/
def events (entered : List Nat) (o : Outcome) : List Event :=
  match o.call, o.result with
  | _, .error _ => []
  | .enter m f, .ok () =>
    (if entered.getLast? = some m then [] else [.setModule m])
      ++ (if m ∈ entered then [] else o.table?.toList.map fun table => .table table.toBytes)
      ++ [.call f]
  | .block id, .ok () => [.block id]
  | .ret, .ok () => [.ret]

/-- To hold of what a call writes before `rest`, a property of a module, of the modules entered and of
the events to come has to be brought back over each kind of call. -/
theorem events_append {P : Option Nat → List Nat → List Event → Prop} {entered : List Nat}
    {rest : List Event} (o : Outcome)
    (henter : ∀ m f answers, o = ⟨.enter m f, .ok (), answers⟩ → P (some m) (entered ++ [m]) rest →
      P entered.getLast? entered (o.events entered ++ rest))
    (hblock : ∀ id, P entered.getLast? entered rest →
      P entered.getLast? entered (.block id :: rest))
    (hret : P entered.getLast? entered rest → P entered.getLast? entered (.ret :: rest))
    (hrest : P (entered ++ o.entered?.toList).getLast? (entered ++ o.entered?.toList) rest) :
    P entered.getLast? entered (o.events entered ++ rest) := by
  rcases o with ⟨c, e | _, answers⟩
  · have hevents : (⟨c, .error e, answers⟩ : Outcome).events entered = [] := by
      cases c <;> rfl
    have hentered : (⟨c, .error e, answers⟩ : Outcome).entered? = none := by
      cases c <;> rfl
    rw [hentered, Option.toList_none, List.append_nil] at hrest
    rw [hevents]
    exact hrest
  · cases c with
    | enter m f =>
      -- what follows is written with `m` active
      have hlast : (entered ++ [m]).getLast? = some m := List.getLast?_concat
      have hrest : P (entered ++ [m]).getLast? (entered ++ [m]) rest := hrest
      rw [hlast] at hrest
      exact henter m f answers rfl hrest
    | block id =>
      have hrest : P (entered ++ []).getLast? (entered ++ []) rest := hrest
      rw [List.append_nil] at hrest
      exact hblock id hrest
    | ret =>
      have hrest : P (entered ++ []).getLast? (entered ++ []) rest := hrest
      rw [List.append_nil] at hrest
      exact hret hrest

/-- The tables that were given are short enough for a trace. -/
def Small (o : Outcome) : Prop :=
  ∀ m table, (m, .ok table) ∈ o.answers → table.toBytes.length < 0x100000000

end Outcome

namespace History

/-- The modules entered by calls that succeeded, one for each call. -/
def entered (history : List Outcome) : List Nat := history.filterMap Outcome.entered?

/-- What calls write, given the modules entered before all of them. -/
def eventsFrom (before : List Nat) : List Outcome → List Event
  | [] => []
  | o :: rest => o.events before ++ eventsFrom (before ++ o.entered?.toList) rest

/-- What the calls of a whole run write. -/
def events (history : List Outcome) : List Event := eventsFrom [] history

theorem entered_cons (o : Outcome) (history : List Outcome) :
    entered (o :: history) = o.entered?.toList ++ entered history := by
  unfold entered
  cases hm : o.entered? <;> simp [hm]

theorem eventsFrom_append (before : List Nat) (history history' : List Outcome) :
    eventsFrom before (history ++ history')
      = eventsFrom before history ++ eventsFrom (before ++ entered history) history' := by
  induction history generalizing before with
  | nil => rw [List.nil_append, entered, List.filterMap_nil, List.append_nil]; rfl
  | cons o history ih =>
    rw [List.cons_append, eventsFrom, eventsFrom, ih, entered_cons, List.append_assoc,
      List.append_assoc]

end History

namespace Recorder

variable {σ : Type} {ask : Supplier σ} {r : Recorder σ} {c : Call} {entered : List Nat}

/-! ## One call -/

/-- The recorder keeps in mind which modules were entered, and which one last. -/
structure Follows (r : Recorder σ) (entered : List Nat) : Prop where
  active : r.active = entered.getLast?
  known : ∀ m, m ∈ r.known ↔ m ∈ entered

/-- What a call does to a recorder that has followed the calls before it. -/
structure Recorded (entered : List Nat) (r r' : Recorder σ) (o : Outcome) : Prop where
  follows : r'.Follows (entered ++ o.entered?.toList)
  bytes : r'.bytes = r.bytes ++ (o.events entered).flatMap Event.bytes
  fits : ∀ e ∈ o.events entered, e.Fits
  asked : ∀ a ∈ o.answers, a.1 ∉ entered
  supplied : ∀ m ∈ o.entered?, m ∉ entered → ∃ table, o.answers = [(m, .ok table)]

theorem follows_start (supply : σ) : (start supply).Follows [] :=
  ⟨rfl, fun _ => Iff.rfl⟩

theorem noted_eq {supply : σ} {m : Nat} {answer : Except Error Table}
    {next : σ × List (Nat × Except Error Table)} (h : ask.noted (supply, []) m = (answer, next)) :
    next.2 = [(m, answer)] := by
  simp only [Supplier.noted, List.nil_append, Prod.mk.injEq] at h
  rcases h with ⟨rfl, rfl⟩
  rfl

/-- What is noted down is an answer that the supplier gave. -/
theorem exists_ask_of_mem {supply : σ} {m : Nat} {answer : Except Error Table}
    {next : σ × List (Nat × Except Error Table)} (h : ask.noted (supply, []) m = (answer, next)) :
    ∀ a ∈ next.2, ∃ s, (ask s a.1).1 = a.2 := by
  intro a ha
  rw [noted_eq h, List.mem_singleton] at ha
  refine ⟨supply, ?_⟩
  rw [ha]
  exact congrArg Prod.fst h

/-- A call that enters nothing keeps what is in mind. -/
theorem Follows.recorded_aside (h : r.Follows entered) (o : Outcome) (supply : σ)
    (hentered : o.entered? = none) (hfits : ∀ e ∈ o.events entered, e.Fits)
    (hasked : ∀ a ∈ o.answers, a.1 ∉ entered) :
    Recorded entered r
      ⟨supply, r.bytes ++ (o.events entered).flatMap Event.bytes, r.active, r.known⟩ o := by
  refine ⟨?_, rfl, hfits, hasked, ?_⟩
  · rw [hentered, Option.toList_none, List.append_nil]
    exact ⟨h.active, h.known⟩
  · intro m hm
    rw [hentered] at hm
    cases hm

theorem Follows.recorded_error (h : r.Follows entered) {e : Error} {supply : σ}
    {answers : List (Nat × Except Error Table)} (hasked : ∀ a ∈ answers, a.1 ∉ entered) :
    Recorded entered r { r with supply := supply } ⟨c, .error e, answers⟩ := by
  have hentered : (⟨c, .error e, answers⟩ : Outcome).entered? = none := by
    cases c <;> rfl
  have hevents : (⟨c, .error e, answers⟩ : Outcome).events entered = [] := by
    cases c <;> rfl
  have hrecorded := h.recorded_aside _ supply hentered (by rw [hevents]; simp) hasked
  rw [hevents, List.flatMap_nil, List.append_nil] at hrecorded
  exact hrecorded

/-- A call that enters `m` makes it the active module, and a known one. -/
theorem Follows.recorded_entering {r' : Recorder σ} (h : r.Follows entered) {m f : Nat}
    {answers : List (Nat × Except Error Table)} {events : List Event}
    (hactive : r'.active = some m) (hknown : ∀ n, n ∈ r'.known ↔ n ∈ r.known ∨ n = m)
    (hevents : (⟨.enter m f, .ok (), answers⟩ : Outcome).events entered = events)
    (hbytes : r'.bytes = r.bytes ++ events.flatMap Event.bytes) (hfits : ∀ e ∈ events, e.Fits)
    (hasked : ∀ a ∈ answers, a.1 ∉ entered)
    (hsupplied : m ∉ entered → ∃ table, answers = [(m, .ok table)]) :
    Recorded entered r r' ⟨.enter m f, .ok (), answers⟩ := by
  refine ⟨⟨?_, ?_⟩, ?_, ?_, hasked, ?_⟩
  · exact hactive.trans List.getLast?_concat.symm
  · intro n
    rw [hknown, h.known]
    exact (List.mem_append.trans (or_congr Iff.rfl List.mem_singleton)).symm
  · rw [hevents, hbytes]
  · rw [hevents]
    exact hfits
  · rintro n ⟨⟩ hn
    exact hsupplied hn

theorem mem_iff_or_of_mem {l : List Nat} {m : Nat} (h : m ∈ l) (n : Nat) :
    n ∈ l ↔ n ∈ l ∨ n = m := by
  constructor
  · exact .inl
  · rintro (hn | rfl)
    · exact hn
    · exact h

/-- Every call is recorded as the events that its outcome stands for. -/
theorem Follows.record (h : r.Follows entered) (hsmall : (r.outcome ask c).Small) :
    Recorded entered r (r.record ask c).2 (r.outcome ask c) := by
  have hcases := record_records ask.noted r.noting c
  have hforget : r.record ask c = _ := forget_record ask r.noting c
  have houtcome : r.outcome ask c
      = ⟨c, (r.noting.record ask.noted c).1, (r.noting.record ask.noted c).2.supply.2⟩ := rfl
  rw [houtcome] at hsmall ⊢
  rw [hforget]
  generalize r.noting.record ask.noted c = out at hcases hsmall
  cases hcases with
  | ret =>
    refine h.recorded_aside ⟨.ret, .ok (), []⟩ r.supply rfl ?_ fun a ha => by cases ha
    intro e he
    cases List.mem_singleton.1 he
    trivial
  | @block id hid =>
    have hbytes : (Event.block id).bytes
        = ((⟨.block id, .ok (), []⟩ : Outcome).events entered).flatMap Event.bytes :=
      (List.append_nil _).symm
    rw [hbytes]
    refine h.recorded_aside ⟨.block id, .ok (), []⟩ r.supply rfl ?_ fun a ha => by cases ha
    intro e he
    cases List.mem_singleton.1 he
    exact hid
  | largeBlock hid => exact h.recorded_error fun a ha => by cases ha
  | largeFunction hf => exact h.recorded_error fun a ha => by cases ha
  | @stay m f hf hactive =>
    -- the active module is the one entered last
    have hlast : entered.getLast? = some m := h.active ▸ hactive
    have hmem : m ∈ entered := List.mem_of_getLast? hlast
    have hevents : (⟨.enter m f, .ok (), []⟩ : Outcome).events entered = [.call f] := by
      simp only [Outcome.events, if_pos hlast, if_pos hmem, List.nil_append]
    refine h.recorded_entering hactive (mem_iff_or_of_mem ((h.known m).2 hmem)) hevents ?_ ?_
      (fun a ha => by cases ha) (fun hn => absurd hmem hn)
    · simp [forget, noting]
    · simpa [Event.Fits] using hf
  | largeModule hf hactive hm => exact h.recorded_error fun a ha => by cases ha
  | @back m f hf hactive hm hknown =>
    -- another module, with its table written earlier
    have hlast : ¬ entered.getLast? = some m := h.active ▸ hactive
    have hmem : m ∈ entered := (h.known m).1 hknown
    have hevents : (⟨.enter m f, .ok (), []⟩ : Outcome).events entered
        = [.setModule m, .call f] := by
      simp only [Outcome.events, if_neg hlast, if_pos hmem, List.append_nil, List.cons_append,
        List.nil_append]
    refine h.recorded_entering rfl (mem_iff_or_of_mem hknown) hevents ?_ ?_
      (fun a ha => by cases ha) (fun hn => absurd hmem hn)
    · simp [forget, noting]
    · simpa [Event.Fits] using ⟨hm, hf⟩
  | refused hf hactive hm hknown hask =>
    have hanswers := noted_eq hask
    refine h.recorded_error ?_
    intro a ha
    rw [hanswers, List.mem_singleton] at ha
    rw [ha, ← h.known]
    exact hknown
  | largeTable hf hactive hm hknown hask hlarge =>
    -- excluded, since the tables are small
    have hanswers := noted_eq hask
    simp only at hsmall
    exact absurd (hsmall _ _ (by rw [hanswers]; exact List.mem_singleton_self _)) hlarge
  | @first m f table supply hf hactive hm hknown hask hfits =>
    -- a module that was not entered before, with the table that was just given
    have hanswers := noted_eq hask
    have hlast : ¬ entered.getLast? = some m := h.active ▸ hactive
    have hmem : m ∉ entered := fun hmem => hknown ((h.known m).2 hmem)
    have hevents : (⟨.enter m f, .ok (), supply.2⟩ : Outcome).events entered
        = [.setModule m, .table table.toBytes, .call f] := by
      rw [hanswers]
      simp only [Outcome.events, if_neg hlast, if_neg hmem]
      rfl
    refine h.recorded_entering rfl (fun n => List.mem_cons.trans Or.comm) hevents ?_ ?_ ?_
      (fun _ => ⟨table, hanswers⟩)
    · simp [forget, noting]
    · simpa [Event.Fits] using ⟨hm, hfits, hf⟩
    · intro a ha
      simp only [hanswers, List.mem_singleton] at ha
      rw [ha]
      exact hmem

/-- What is noted down is what the supplier answers. -/
theorem answered (ask : Supplier σ) (r : Recorder σ) (c : Call) :
    ∀ a ∈ (r.outcome ask c).answers, ∃ s, (ask s a.1).1 = a.2 := by
  have hcases := record_records ask.noted r.noting c
  have houtcome : (r.outcome ask c).answers = (r.noting.record ask.noted c).2.supply.2 := rfl
  rw [houtcome]
  generalize r.noting.record ask.noted c = out at hcases
  cases hcases with
  | ret | block | largeBlock | largeFunction | stay | largeModule | back =>
    -- nothing is asked for
    intro a ha
    cases ha
  | refused hf hactive hm hknown hask => exact exists_ask_of_mem hask
  | largeTable hf hactive hm hknown hask hlarge => exact exists_ask_of_mem hask
  | first hf hactive hm hknown hask hsmall => exact exists_ask_of_mem hask

/-- A call that succeeds had to write the table it was given. -/
theorem small_of_ok (h : (r.outcome ask c).result = .ok ()) : (r.outcome ask c).Small := by
  have hcases := record_records ask.noted r.noting c
  have houtcome : r.outcome ask c
      = ⟨c, (r.noting.record ask.noted c).1, (r.noting.record ask.noted c).2.supply.2⟩ := rfl
  rw [houtcome] at h ⊢
  generalize r.noting.record ask.noted c = out at hcases h
  cases hcases with
  | ret | block | stay | back =>
    intro m table hm
    cases hm
  | largeBlock | largeFunction | largeModule | refused | largeTable => cases h
  | first hf hactive hm hknown hask hsmall =>
    have hanswers := noted_eq hask
    intro m table hm
    simp only [hanswers, List.mem_singleton, Prod.mk.injEq, Except.ok.injEq] at hm
    rw [hm.2]
    exact hsmall

/-! ## Runs -/

theorem run_cons (ask : Supplier σ) (r : Recorder σ) (c : Call) (calls : List Call) :
    r.run ask (c :: calls) = (r.record ask c).2.run ask calls := rfl

theorem outcomes_append (ask : Supplier σ) (r : Recorder σ) (calls calls' : List Call) :
    r.outcomes ask (calls ++ calls')
      = r.outcomes ask calls ++ (r.run ask calls).outcomes ask calls' := by
  induction calls generalizing r with
  | nil => rfl
  | cons c calls ih => rw [List.cons_append, outcomes, outcomes, ih, run_cons, List.cons_append]

theorem map_call_outcomes (ask : Supplier σ) (r : Recorder σ) (calls : List Call) :
    (r.outcomes ask calls).map Outcome.call = calls := by
  induction calls generalizing r with
  | nil => rfl
  | cons c calls ih => rw [outcomes, List.map_cons, ih]; rfl

theorem small_of_mem_outcomes {calls : List Call} {o : Outcome} (h : o ∈ r.outcomes ask calls)
    (hok : o.result = .ok ()) : o.Small := by
  induction calls generalizing r with
  | nil => cases h
  | cons c calls ih =>
    rcases List.mem_cons.1 h with rfl | h
    · exact small_of_ok hok
    · exact ih h

theorem answered_of_mem {calls : List Call} {o : Outcome} (h : o ∈ r.outcomes ask calls) :
    ∀ a ∈ o.answers, ∃ s, (ask s a.1).1 = a.2 := by
  induction calls generalizing r with
  | nil => cases h
  | cons c calls ih =>
    rcases List.mem_cons.1 h with rfl | h
    · exact answered ask r c
    · exact ih h

/-- A recorder that has followed what happened before writes the events of what happens next. -/
theorem Follows.run (h : r.Follows entered) {calls : List Call}
    (hsmall : ∀ o ∈ r.outcomes ask calls, o.Small) :
    (r.run ask calls).bytes
        = r.bytes ++ (History.eventsFrom entered (r.outcomes ask calls)).flatMap Event.bytes ∧
      ∀ e ∈ History.eventsFrom entered (r.outcomes ask calls), e.Fits := by
  induction calls generalizing r entered with
  | nil => exact ⟨(List.append_nil _).symm, fun e he => by cases he⟩
  | cons c calls ih =>
    have hstep := h.record (hsmall _ List.mem_cons_self)
    obtain ⟨hbytes, hfits⟩ := ih hstep.follows fun o ho => hsmall o (List.mem_cons_of_mem _ ho)
    constructor
    · rw [run_cons, hbytes, hstep.bytes, outcomes, History.eventsFrom, List.flatMap_append,
        List.append_assoc]
    · intro e he
      rcases List.mem_append.1 he with he | he
      · exact hstep.fits e he
      · exact hfits e he

/-- The supplier is asked only about modules that were not entered, and it has to answer for the
first entry. -/
theorem Follows.asked (h : r.Follows entered) {calls : List Call}
    (hsmall : ∀ o ∈ r.outcomes ask calls, o.Small) {earlier later : List Outcome} {o : Outcome}
    (hsplit : r.outcomes ask calls = earlier ++ o :: later) :
    (∀ a ∈ o.answers, a.1 ∉ entered ++ History.entered earlier) ∧
      ∀ m ∈ o.entered?, m ∉ entered ++ History.entered earlier →
        ∃ table, o.answers = [(m, .ok table)] := by
  induction calls generalizing r entered earlier with
  | nil => cases earlier <;> cases hsplit
  | cons c calls ih =>
    have hstep := h.record (hsmall _ List.mem_cons_self)
    rw [outcomes] at hsplit
    cases earlier with
    | nil =>
      cases hsplit
      rw [History.entered, List.filterMap_nil, List.append_nil]
      exact ⟨hstep.asked, hstep.supplied⟩
    | cons first earlier =>
      simp only [List.cons_append, List.cons.injEq] at hsplit
      rcases hsplit with ⟨hfirst, hrest⟩
      have hentered : entered ++ History.entered (first :: earlier)
          = entered ++ first.entered?.toList ++ History.entered earlier := by
        rw [History.entered_cons, List.append_assoc]
      rw [hentered, ← hfirst]
      exact ih hstep.follows (fun o ho => hsmall o (List.mem_cons_of_mem _ ho)) hrest

/-- The trace of a run reads as the events of its calls, and no table is asked for again once it is
written. -/
theorem decode_run (ask : Supplier σ) (supply : σ) (calls : List Call)
    (hsmall : ∀ o ∈ (start supply).outcomes ask calls, o.Small) :
    Trace.decode ((start supply).run ask calls).bytes
        = .ok (History.events ((start supply).outcomes ask calls)) ∧
      ∀ earlier o later, (start supply).outcomes ask calls = earlier ++ o :: later →
        (∀ a ∈ o.answers, a.1 ∉ History.entered earlier) ∧
          ∀ m ∈ o.entered?, m ∉ History.entered earlier →
            ∃ table, o.answers = [(m, .ok table)] := by
  rcases (follows_start supply).run hsmall with ⟨hbytes, hfits⟩
  constructor
  · rw [hbytes]
    exact Trace.decode_bytes hfits
  · intro earlier o later hsplit
    exact (follows_start supply).asked hsmall hsplit

/-- A supplier that has no answer the first time it is asked. -/
def failsOnce : Supplier Bool := fun asked _ =>
  (if asked then .ok ⟨[], []⟩ else .error (.fileError "busy"), true)

theorem decode_run_failsOnce :
    Trace.decode ((start false).run failsOnce
        [.enter 3 1, .enter 3 1, .block 300, .enter 3 2, .ret]).bytes
      = .ok [.setModule 3, .table (Table.toBytes ⟨[], []⟩), .call 1, .block 300, .call 2,
          .ret] := by
  have hsmall : ∀ o ∈ (start false).outcomes failsOnce
      [.enter 3 1, .enter 3 1, .block 300, .enter 3 2, .ret], o.Small := by
    have houtcomes : (start false).outcomes failsOnce
        [.enter 3 1, .enter 3 1, .block 300, .enter 3 2, .ret]
        = [⟨.enter 3 1, .error (.fileError "busy"), [(3, .error (.fileError "busy"))]⟩,
          ⟨.enter 3 1, .ok (), [(3, .ok ⟨[], []⟩)]⟩, ⟨.block 300, .ok (), []⟩,
          ⟨.enter 3 2, .ok (), []⟩, ⟨.ret, .ok (), []⟩] := rfl
    rw [houtcomes]
    intro o ho m table hm
    simp only [List.mem_cons, List.not_mem_nil, or_false] at ho
    rcases ho with rfl | rfl | rfl | rfl | rfl
    · simp at hm
    · rcases by simpa using hm with ⟨-, rfl⟩ : m = 3 ∧ table = ⟨[], []⟩
      decide
    · cases hm
    · cases hm
    · cases hm
  exact (decode_run failsOnce false _ hsmall).1

end Recorder

end Retrace
