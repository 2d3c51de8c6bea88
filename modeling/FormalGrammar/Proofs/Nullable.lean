import FormalGrammar.Grammar.Nullable
import Mathlib.Data.List.Nodup
import Mathlib.Data.List.Perm.Subperm

/-!
# The nullable nonterminals are the least closed set

A pass only ever adds left-hand sides that were not there. A pass that changes nothing
therefore means that the set is closed under the rules, and as many passes as there are
groups of rules end in such a set (`nullablePass_nullable`), since each pass before that
adds a left-hand side. `mem_nullable_of_body` is the closure of the set that results, and
`nullable_induction` says that it lies in every closed set.
-/

namespace FormalGrammar.Grammar

variable {rules : List (Char × List Form)} {known : List Char}

/-! ## One pass -/

theorem nullablePass_cons (x : Char) (bodies : List Form) (rules : List (Char × List Form))
    (known : List Char) :
    nullablePass ((x, bodies) :: rules) known =
      nullablePass rules
        (if !known.contains x && bodies.any (fun b => b.all known.contains) then known ++ [x]
        else known) := rfl

theorem prefix_nullablePass (rules : List (Char × List Form)) (known : List Char) :
    known <+: nullablePass rules known := by
  induction rules generalizing known with
  | nil => exact List.prefix_rfl
  | cons r rules ih =>
    rw [nullablePass_cons]
    split
    · exact (List.prefix_append known [r.1]).trans (ih _)
    · exact ih known

theorem nodup_nullablePass (rules : List (Char × List Form)) (h : known.Nodup) :
    (nullablePass rules known).Nodup := by
  induction rules generalizing known with
  | nil => exact h
  | cons r rules ih =>
    rw [nullablePass_cons]
    split
    · next hc =>
      simp only [Bool.and_eq_true, Bool.not_eq_true', List.contains_eq_mem,
        decide_eq_false_iff_not] at hc
      exact ih (by simpa using List.Nodup.concat hc.1 h)
    · exact ih h

theorem mem_of_mem_nullablePass {x : Char} (h : x ∈ nullablePass rules known) :
    x ∈ known ∨ x ∈ rules.map Prod.fst := by
  induction rules generalizing known with
  | nil => exact .inl h
  | cons r rules ih =>
    rw [nullablePass_cons] at h
    rw [List.map_cons, List.mem_cons]
    rcases ih h with h | h
    · split at h
      · rcases List.mem_append.mp h with h | h
        · exact .inl h
        · exact .inr (.inl (List.mem_singleton.mp h))
      · exact .inl h
    · exact .inr (.inr h)

/-- A set that a pass leaves as it is holds every left-hand side with a body inside the set. -/
theorem mem_of_nullablePass_eq (hfix : nullablePass rules known = known) {x : Char}
    {bodies : List Form} (hr : (x, bodies) ∈ rules) {b : Form} (hb : b ∈ bodies)
    (hk : ∀ c ∈ b, c ∈ known) : x ∈ known := by
  induction rules with
  | nil => cases hr
  | cons r rules ih =>
    rw [nullablePass_cons] at hfix
    split at hfix
    · -- The first group cannot have been added, for the set has not grown.
      have hp := (prefix_nullablePass rules (known ++ [r.1])).length_le
      rw [hfix, List.length_append, List.length_singleton] at hp
      omega
    · next hc =>
      rcases List.mem_cons.mp hr with rfl | hr
      · have hany : bodies.any (fun b => b.all known.contains) = true := by
          refine List.any_eq_true.mpr ⟨b, hb, List.all_eq_true.mpr fun c hm => ?_⟩
          simpa using hk c hm
        simpa [hany] using hc
      · exact ih hfix hr

/-! ## All passes -/

theorem nodup_nullableAfter (rules : List (Char × List Form)) (n : Nat) :
    (nullableAfter rules n).Nodup := by
  induction n with
  | zero => exact List.nodup_nil
  | succ n ih => exact nodup_nullablePass rules ih

theorem nullableAfter_subset (rules : List (Char × List Form)) (n : Nat) :
    nullableAfter rules n ⊆ rules.map Prod.fst := by
  induction n with
  | zero => exact List.nil_subset _
  | succ n ih =>
    intro x hx
    rcases mem_of_mem_nullablePass hx with hx | hx
    · exact ih hx
    · exact hx

theorem length_nullableAfter_le (rules : List (Char × List Form)) (n : Nat) :
    (nullableAfter rules n).length ≤ rules.length := by
  have hs := (nodup_nullableAfter rules n).subperm (nullableAfter_subset rules n)
  simpa using hs.length_le

/-- As long as the passes have not settled, each has added a nonterminal. -/
theorem le_length_nullableAfter (rules : List (Char × List Form)) (n : Nat) :
    nullablePass rules (nullableAfter rules n) = nullableAfter rules n ∨
      n < (nullablePass rules (nullableAfter rules n)).length := by
  induction n with
  | zero =>
    cases h : nullablePass rules (nullableAfter rules 0) with
    | nil => exact .inl rfl
    | cons _ _ => exact .inr (Nat.succ_pos _)
  | succ n ih =>
    rcases ih with ih | ih
    · exact .inl (by simp only [nullableAfter, ih])
    · have hp := prefix_nullablePass rules (nullableAfter rules (n + 1))
      by_cases he : (nullableAfter rules (n + 1)).length =
          (nullablePass rules (nullableAfter rules (n + 1))).length
      · exact .inl (hp.eq_of_length he).symm
      · have hle := hp.length_le
        have hn : n < (nullableAfter rules (n + 1)).length := ih
        exact .inr (by omega)

/-- **The passes have settled** on the set of nullable nonterminals. -/
theorem nullablePass_nullable (g : Grammar) : nullablePass g.rules g.nullable = g.nullable := by
  rcases le_length_nullableAfter g.rules g.rules.length with h | h
  · exact h
  · have hle : (nullablePass g.rules (nullableAfter g.rules g.rules.length)).length ≤
        g.rules.length := length_nullableAfter_le g.rules (g.rules.length + 1)
    omega

/-- A left-hand side with a body of nullable symbols is nullable. -/
theorem mem_nullable_of_body {g : Grammar} {x : Char} {bodies : List Form}
    (hr : (x, bodies) ∈ g.rules) {b : Form} (hb : b ∈ bodies) (hn : ∀ c ∈ b, c ∈ g.nullable) :
    x ∈ g.nullable :=
  mem_of_nullablePass_eq (nullablePass_nullable g) hr hb hn

/-! ## The least set -/

theorem nullablePass_induction {p : Char → Prop}
    (closed : ∀ x bodies, (x, bodies) ∈ rules → ∀ b ∈ bodies, (∀ c ∈ b, p c) → p x)
    (hk : ∀ x ∈ known, p x) : ∀ x ∈ nullablePass rules known, p x := by
  induction rules generalizing known with
  | nil => exact hk
  | cons r rules ih =>
    have hrest := fun y bodies hr => closed y bodies (List.mem_cons_of_mem r hr)
    rw [nullablePass_cons]
    split
    · next hc =>
      simp only [Bool.and_eq_true, List.any_eq_true, List.all_eq_true,
        List.contains_eq_mem, decide_eq_true_eq] at hc
      obtain ⟨-, b, hb, hbk⟩ := hc
      have hr : p r.1 := closed r.1 r.2 List.mem_cons_self b hb fun c hc => hk c (hbk c hc)
      refine ih hrest fun x hx => ?_
      rcases List.mem_append.mp hx with hx | hx
      · exact hk x hx
      · exact List.mem_singleton.mp hx ▸ hr
    · exact ih hrest hk

/-- **Induction over the nullable nonterminals.** What holds of every left-hand side that has a
body of symbols of which it holds, holds of them all. -/
theorem nullable_induction {g : Grammar} {p : Char → Prop}
    (closed : ∀ x bodies, (x, bodies) ∈ g.rules → ∀ b ∈ bodies, (∀ c ∈ b, p c) → p x) :
    ∀ x ∈ g.nullable, p x := by
  have after : ∀ n, ∀ x ∈ nullableAfter g.rules n, p x := by
    intro n
    induction n with
    | zero => simp [nullableAfter]
    | succ n ih => exact nullablePass_induction closed ih
  exact after g.rules.length

/-- A nullable nonterminal has a body of nullable symbols. -/
theorem exists_body_of_mem_nullable {g : Grammar} {x : Char} (hx : x ∈ g.nullable) :
    ∃ bodies, (x, bodies) ∈ g.rules ∧ ∃ b ∈ bodies, ∀ c ∈ b, c ∈ g.nullable := by
  -- Of the symbols of a body the induction knows only this property, so it says as well that they
  -- are nullable.
  have h : ∀ x ∈ g.nullable, x ∈ g.nullable ∧
      ∃ bodies, (x, bodies) ∈ g.rules ∧ ∃ b ∈ bodies, ∀ c ∈ b, c ∈ g.nullable := by
    refine nullable_induction fun x bodies hr b hb hp => ?_
    have hn : ∀ c ∈ b, c ∈ g.nullable := fun c hc => (hp c hc).1
    exact ⟨mem_nullable_of_body hr hb hn, bodies, hr, b, hb, hn⟩
  exact (h x hx).2

end FormalGrammar.Grammar
