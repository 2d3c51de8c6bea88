/-!
# Computations that may fail

Reading, building and loading are sequences of steps of which each may end in a fault. What a
sequence gives, and what it may fail with, is told by its steps: for two steps after each other,
for a step at each member of a list, and for a fold over a list.
-/

namespace FormalGrammar

variable {ε α β σ : Type}

/-! ## Results -/

theorem bind_eq_ok_iff {x : Except ε α} {f : α → Except ε β} {b : β} :
    x >>= f = .ok b ↔ ∃ a, x = .ok a ∧ f a = .ok b := by
  cases x with
  | error e => exact ⟨nofun, nofun⟩
  | ok a => simp [bind, Except.bind]

/-- A fold over a list goes through if each step in its turn does. -/
theorem foldlM_eq_ok {f : σ → α → Except ε σ} (state : List α → σ) (xs : List α)
    (h : ∀ before x after, xs = before ++ x :: after →
      f (state before) x = .ok (state (before ++ [x]))) :
    xs.foldlM f (state []) = .ok (state xs) := by
  have onward : ∀ before after, xs = before ++ after →
      after.foldlM f (state before) = .ok (state xs) := by
    intro before after
    induction after generalizing before with
    | nil =>
      intro he
      rw [he, List.append_nil]
      rfl
    | cons x after ih =>
      intro he
      rw [List.foldlM_cons, h before x after he]
      exact ih (before ++ [x]) (by rw [he, List.append_assoc]; rfl)
  exact onward [] xs rfl

/-- A list of computations goes through if each of them does. -/
theorem mapM_eq_ok {f : α → Except ε β} {h : α → β} {xs : List α}
    (hf : ∀ x ∈ xs, f x = .ok (h x)) : xs.mapM f = .ok (xs.map h) := by
  induction xs with
  | nil => rfl
  | cons x xs ih =>
    rw [List.mapM_cons, hf x List.mem_cons_self, ih fun y hy => hf y (List.mem_cons_of_mem _ hy)]
    rfl

/-- What is collected from a list comes from its members. -/
theorem exists_of_mem_mapM {f : α → Except ε β} {xs : List α} {ys : List β}
    (h : xs.mapM f = .ok ys) {y : β} (hy : y ∈ ys) : ∃ x ∈ xs, f x = .ok y := by
  induction xs generalizing ys with
  | nil =>
    cases h
    cases hy
  | cons x xs ih =>
    simp only [List.mapM_cons, bind_eq_ok_iff, pure, Except.pure, Except.ok.injEq] at h
    obtain ⟨z, hx, zs, hxs, rfl⟩ := h
    rcases List.mem_cons.mp hy with rfl | hy
    · exact ⟨x, List.mem_cons_self, hx⟩
    · obtain ⟨x', hx', he⟩ := ih hxs hy
      exact ⟨x', List.mem_cons_of_mem _ hx', he⟩

/-! ## Faults -/

/-- Every fault of a computation satisfies `p`. -/
def FailsWith (p : ε → Prop) (x : Except ε α) : Prop := ∀ f, x = .error f → p f

namespace FailsWith

variable {p q : ε → Prop}

theorem ok (a : α) : FailsWith p (.ok a : Except ε α) := by
  rintro f ⟨⟩

theorem error {f : ε} (h : p f) : FailsWith p (.error f : Except ε α) := by
  rintro f' ⟨⟩
  exact h

theorem imp (h : ∀ f, p f → q f) {x : Except ε α} (hx : FailsWith p x) : FailsWith q x :=
  fun f hf => h f (hx f hf)

theorem bind {x : Except ε α} {k : α → Except ε β} (hx : FailsWith p x)
    (hk : ∀ a, x = .ok a → FailsWith p (k a)) : FailsWith p (x >>= k) := by
  cases x with
  | error f => exact .error (hx f rfl)
  | ok a => exact hk a rfl

theorem foldlM {step : σ → α → Except ε σ} {xs : List α}
    (h : ∀ s, ∀ x ∈ xs, FailsWith p (step s x)) (s : σ) : FailsWith p (xs.foldlM step s) := by
  induction xs generalizing s with
  | nil => exact .ok s
  | cons x xs ih =>
    rw [List.foldlM_cons]
    exact (h s x List.mem_cons_self).bind fun s' _ =>
      ih (fun s y hy => h s y (List.mem_cons_of_mem _ hy)) s'

theorem mapM {f : α → Except ε β} {xs : List α} (h : ∀ x ∈ xs, FailsWith p (f x)) :
    FailsWith p (xs.mapM f) := by
  induction xs with
  | nil => exact .ok []
  | cons x xs ih =>
    rw [List.mapM_cons]
    exact (h x List.mem_cons_self).bind fun _ _ =>
      (ih fun y hy => h y (List.mem_cons_of_mem _ hy)).bind fun _ _ => .ok _

end FailsWith

end FormalGrammar
