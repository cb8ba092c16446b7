import Mathlib.Data.List.Forall2

/-!
# Result — taking computations that may fail apart

* `Except.bind_eq_ok`, `Except.bind_eq_error` — a sequence of two steps that succeeds or fails;
* `Except.ok_bind` — the second step, once the first has succeeded;
* `Except.mapM_ok` — a list of which every item succeeds;
* `Except.mapM_congr` — a list whose items fare alike in two ways;
* `Except.mapM_eq_ok`, `Except.mapM_eq_error` — a list of which every item succeeds, and one with a
  first item that fails;
* `exists_mem_of_forall₂` — two lists that are related item by item.
-/

namespace Retrace

/-- Every item of the second list has a partner in the first. -/
theorem exists_mem_of_forall₂ {α β : Type} {R : α → β → Prop} {xs : List α} {ys : List β}
    (h : List.Forall₂ R xs ys) {y : β} (hy : y ∈ ys) : ∃ x ∈ xs, R x y := by
  induction h with
  | nil => cases hy
  | cons hfirst _ ih =>
    rcases List.mem_cons.1 hy with rfl | hy
    · exact ⟨_, List.mem_cons_self, hfirst⟩
    · rcases ih hy with ⟨x, hx, hxy⟩
      exact ⟨x, List.mem_cons_of_mem _ hx, hxy⟩

namespace Except

variable {ε α β : Type}

theorem bind_eq_ok {x : Except ε α} {f : α → Except ε β} {b : β} :
    (x >>= f) = .ok b ↔ ∃ a, x = .ok a ∧ f a = .ok b := by
  cases x with
  | error e => simp [bind, Except.bind]
  | ok a => simp [bind, Except.bind]

theorem bind_eq_error {x : Except ε α} {f : α → Except ε β} {e : ε} :
    (x >>= f) = .error e ↔ x = .error e ∨ ∃ a, x = .ok a ∧ f a = .error e := by
  cases x with
  | error e' => simp [bind, Except.bind]
  | ok a => simp [bind, Except.bind]

-- proved by rewriting, so that `simp only` rewrites with it and does not take both sides for equal
-- by unfolding
theorem ok_bind (a : α) (f : α → Except ε β) : (Except.ok a >>= f) = f a := by
  simp only [bind, Except.bind]

theorem mapM_ok {f : α → Except ε β} {g : α → β} {l : List α} (h : ∀ a ∈ l, f a = .ok (g a)) :
    l.mapM f = .ok (l.map g) := by
  induction l with
  | nil => rfl
  | cons a l ih =>
    have hrest := ih fun b hb => h b (List.mem_cons_of_mem a hb)
    rw [List.mapM_cons, h a List.mem_cons_self, ok_bind, hrest, ok_bind]
    rfl

theorem mapM_congr {f g : α → Except ε β} {l : List α} (h : ∀ a ∈ l, f a = g a) :
    l.mapM f = l.mapM g := by
  induction l with
  | nil => rfl
  | cons a l ih =>
    have hrest := ih fun b hb => h b (List.mem_cons_of_mem a hb)
    rw [List.mapM_cons, List.mapM_cons, h a List.mem_cons_self, hrest]

theorem mapM_eq_ok {f : α → Except ε β} {l : List α} {l' : List β} :
    l.mapM f = .ok l' ↔ List.Forall₂ (fun a b => f a = .ok b) l l' := by
  induction l generalizing l' with
  | nil =>
    constructor
    · intro h
      cases h
      exact .nil
    · rintro ⟨⟩
      rfl
  | cons a l ih =>
    rw [List.mapM_cons, bind_eq_ok]
    constructor
    · rintro ⟨b, hb, h⟩
      rcases bind_eq_ok.1 h with ⟨rest, hrest, hl'⟩
      cases hl'
      exact .cons hb (ih.1 hrest)
    · rintro (_ | ⟨hb, hrest⟩)
      exact ⟨_, hb, bind_eq_ok.2 ⟨_, ih.2 hrest, rfl⟩⟩

theorem mapM_eq_error {f : α → Except ε β} {l : List α} {e : ε} :
    l.mapM f = .error e ↔
      ∃ front a rest, l = front ++ a :: rest ∧ (∀ b ∈ front, ∃ c, f b = .ok c) ∧
        f a = .error e := by
  induction l with
  | nil =>
    constructor
    · intro h
      cases h
    · rintro ⟨front, a, rest, hl, -⟩
      exact absurd hl.symm (List.append_ne_nil_of_right_ne_nil front (List.cons_ne_nil a rest))
  | cons a l ih =>
    rw [List.mapM_cons]
    constructor
    · intro h
      rcases bind_eq_error.1 h with ha | ⟨b, hb, h⟩
      · exact ⟨[], a, l, rfl, fun b hb => (by cases hb), ha⟩
      · rcases bind_eq_error.1 h with hl | ⟨bs, -, h⟩
        · rcases ih.1 hl with ⟨front, c, rest, rfl, hfront, hc⟩
          refine ⟨a :: front, c, rest, rfl, ?_, hc⟩
          intro d hd
          rcases List.mem_cons.1 hd with rfl | hd
          · exact ⟨b, hb⟩
          · exact hfront d hd
        · cases h
    · rintro ⟨_ | ⟨b, front⟩, c, rest, hl, hfront, hc⟩
      · cases hl
        exact bind_eq_error.2 (.inl hc)
      · cases hl
        rcases hfront _ List.mem_cons_self with ⟨d, hd⟩
        have hrest := ih.2 ⟨front, c, rest, rfl,
          fun d hd => hfront d (List.mem_cons_of_mem _ hd), hc⟩
        exact bind_eq_error.2 (.inr ⟨d, hd, bind_eq_error.2 (.inl hrest)⟩)

end Except

end Retrace
