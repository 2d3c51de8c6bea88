import FormalGrammar.Proofs.EmptyWord
import FormalGrammar.Proofs.Verdicts
import Mathlib.Order.Bounds.Defs

/-!
# The rules of length

The search leaves a form out if its least yield is longer than the word, and if it is too long to
shrink to the length of the word in the rewrites left. Neither rule loses a derivation, since no
rewrite lowers the least yield and each takes at most one symbol away. For the first rule no number
above the least yield would do, since some form as short is derived (`isLeast_minLength`): the
nullable symbols can be erased one after the other.

Main statement: `Grammar.length_rules`.
-/

namespace FormalGrammar.Grammar

open Search

variable {g : Grammar} {k : Nat} {f f' : Form}

/-! ## Least yields -/

theorem Rewrites.append_left (h : g.Rewrites f f') (before : Form) :
    g.Rewrites (before ++ f) (before ++ f') := by
  cases h with
  | replace front x body after hx hp =>
    simpa using Rewrites.replace (before ++ front) x body after hx hp

theorem Derives.append_left (h : g.Derives k f f') (before : Form) :
    g.Derives k (before ++ f) (before ++ f') := by
  induction h with
  | refl f => exact .refl _
  | step hr _ ih => exact .step (hr.append_left before) ih

/-- Every form derives one that is as long as its least yield. -/
theorem exists_derives_minLength (hg : g.WellFormed) (f : Form) :
    ∃ k f', g.Derives k f f' ∧ f'.length = minLength g.nullable f := by
  induction f with
  | nil => exact ⟨0, [], .refl [], rfl⟩
  | cons c f ih =>
    obtain ⟨n, f', hf, hlength⟩ := ih
    by_cases hc : c ∈ g.nullable
    · obtain ⟨m, hm⟩ := exists_derives_of_mem_nullable hg c hc
      refine ⟨m + n, f', (hm.append_right f).trans hf, ?_⟩
      simpa [minLength, hc] using hlength
    · refine ⟨n, c :: f', hf.append_left [c], ?_⟩
      simpa [minLength, hc] using hlength

/-- **The least yield is the least length of a form that is derived.** -/
theorem isLeast_minLength (hg : g.WellFormed) (f : Form) :
    IsLeast {n | ∃ k f', g.Derives k f f' ∧ f'.length = n} (minLength g.nullable f) := by
  refine ⟨exists_derives_minLength hg f, ?_⟩
  rintro n ⟨k, f', h, rfl⟩
  exact h.minLength_le_length

/-! ## Forms that are left out -/

/-- **The rules of length lose nothing.** The least yield of a form is the least length of what it
derives. Rewrites never lower it, it is at most the length, and each rewrite takes at most one
symbol away. So a form that the first rule leaves out derives the word in no number of rewrites, and
one that the second rule leaves out at some depth derives it in none that stays within the bound. -/
theorem length_rules (hg : g.Reachable) :
    (∀ f, IsLeast {n | ∃ k f', g.Derives k f f' ∧ f'.length = n} (minLength g.nullable f)) ∧
    (∀ k f f', g.Derives k f f' →
      minLength g.nullable f ≤ minLength g.nullable f' ∧ minLength g.nullable f' ≤ f'.length ∧
        f.length ≤ f'.length + k) ∧
    ∀ (word form : Form) (bound depth : Nat) (memo : Memo), depth ≤ bound →
      (word.length < minLength g.nullable form →
        explore (g.query word) (bound - depth + 1) depth form memo = .skip false memo ∧
          ∀ n, ¬ g.Derives n form word) ∧
      (minLength g.nullable form ≤ word.length → word.length + (bound - depth) < form.length →
        explore (g.query word) (bound - depth + 1) depth form memo = .skip true memo ∧
          ∀ n ≤ bound - depth, ¬ g.Derives n form word) := by
  refine ⟨isLeast_minLength hg.wellFormed,
    fun k f f' h => ⟨h.minLength_le, List.countP_le_length, h.length_le⟩, ?_⟩
  intro word form bound depth memo hd
  refine ⟨fun hshort => ⟨explore_of_short hshort, fun n h => ?_⟩,
    fun hshort hlong => ⟨explore_of_long hshort hlong, fun n hn h => ?_⟩⟩
  · exact Nat.not_lt.mpr h.minLength_le_length hshort
  · have hlength := h.length_le
    omega

/-- For the word `a`, the form `aaS` is left out for good, and `SSSS` with two rewrites left. Four
would be enough for it. -/
theorem length_rules_doubling :
    doubling.Reachable ∧
    (doubling.Derives 4 ['S', 'S', 'S', 'S'] ['a'] ∧
      minLength doubling.nullable ['S', 'S', 'S', 'S'] ≤ minLength doubling.nullable ['a']) ∧
    (explore (doubling.query ['a']) 4 2 ['a', 'a', 'S'] ∅ = .skip false ∅ ∧
      ∀ n, ¬ doubling.Derives n ['a', 'a', 'S'] ['a']) ∧
    (explore (doubling.query ['a']) 3 3 ['S', 'S', 'S', 'S'] ∅ = .skip true ∅ ∧
      ∀ n ≤ 2, ¬ doubling.Derives n ['S', 'S', 'S', 'S'] ['a']) := by
  obtain ⟨-, lengths, rules⟩ := length_rules doubling_reachable
  have hs : 'S' ∈ doubling.nonterminals := by decide
  have hderives : doubling.Derives 4 ['S', 'S', 'S', 'S'] ['a'] :=
    .step (.replace [] 'S' ['a'] ['S', 'S', 'S'] hs (by decide)) <|
    .step (.replace ['a'] 'S' [] ['S', 'S'] hs (by decide)) <|
    .step (.replace ['a'] 'S' [] ['S'] hs (by decide)) <|
    .step (.replace ['a'] 'S' [] [] hs (by decide)) <| .refl ['a']
  exact ⟨doubling_reachable, ⟨hderives, (lengths 4 _ _ hderives).1⟩,
    (rules ['a'] ['a', 'a', 'S'] 5 2 ∅ (by decide)).1 (by decide),
    (rules ['a'] ['S', 'S', 'S', 'S'] 5 3 ∅ (by decide)).2 (by decide) (by decide)⟩

end FormalGrammar.Grammar
