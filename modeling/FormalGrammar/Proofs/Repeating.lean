import FormalGrammar.Proofs.Additions
import FormalGrammar.Proofs.Remembering

/-!
# Productions that are given twice

A production that is given again is tried again, at every occurrence of its left-hand side, and each
time in silence. The first try came to nothing, or the second would not have been made; so its
target was skipped by a rule that still skips it, or its visit has put it into the memo. The second
visit therefore takes no step and is cut only if the first was (`explore_again`). What is left of it
is a node in the tree, which only a member shows.

Main statement: `Analysis.run_repeated`.
-/

namespace FormalGrammar

namespace Search

/-! ## Second visits -/

/-- A later memo covers what an earlier one covers. -/
def Extends (later memo : Memo) : Prop := ∀ f d, memo.covers f d = true → later.covers f d = true

/-- With this memo and all later ones a visit of the form takes no step, and it is cut only if `cut`
says so. -/
def Settled (visit : Form → Memo → Visit) (memo : Memo) (cut : Bool) (form : Form) : Prop :=
  ∀ later, Extends later memo → ∃ c, visit form later = .skip c later ∧ (c = true → cut = true)

theorem Settled.extend {visit : Form → Memo → Visit} {memo later : Memo} {cut cut' : Bool}
    {form : Form} (h : Settled visit memo cut form) (hl : Extends later memo)
    (hc : cut = true → cut' = true) : Settled visit later cut' form := by
  intro last hlast
  obtain ⟨c, hv, hcut⟩ := h last fun f d hf => hlast f d (hl f d hf)
  exact ⟨c, hv, fun h => hc (hcut h)⟩

/-- **A visit that has come to nothing is not made again.** -/
theorem explore_again {q : Query} (left depth : Nat) (form : Form) (memo : Memo)
    (hp : (explore q left depth form memo).path = none) :
    Settled (explore q left depth) (explore q left depth form memo).memo
      (explore q left depth form memo).cut form := by
  intro later hlater
  have hnoted := explore_noted (q := q) left depth form memo
  cases left with
  | zero => exact ⟨true, rfl, fun _ => rfl⟩
  | succ left =>
    by_cases hs : q.word.length < q.minLength form
    · exact ⟨false, explore_of_short hs, nofun⟩
    have hs' := Nat.le_of_not_lt hs
    by_cases hl : q.word.length + left < form.length
    · refine ⟨true, explore_of_long hs' hl, fun _ => ?_⟩
      rw [explore_of_long hs' hl]
      rfl
    have hl' := Nat.le_of_not_lt hl
    -- In the cases that are left, the memo covers the form after the first visit.
    suffices hk : (explore q (left + 1) depth form memo).memo.covers form depth = true from
      ⟨false, explore_of_known hs' hl' (hlater form depth hk), nofun⟩
    cases hk : memo.covers form depth with
    | true => exact hnoted.grows form depth hk
    | false =>
      by_cases hw : form = q.word
      · rw [explore_of_found hs' hl' hk hw] at hp
        cases hp
      · refine hnoted.kept hp ⟨depth, form, false⟩ ?_
        rw [explore_of_expanded hs' hl' hk hw]
        exact List.mem_cons_self

/-! ## Lists with repetitions -/

/-- The second list is the first with further elements, each of which stands before in the list or
is among those that came before both lists. -/
inductive Repeats {α : Type} : List α → List α → List α → Prop
  | nil (before : List α) : Repeats before [] []
  | keep {before : List α} {x : α} {xs ys : List α} :
      Repeats (x :: before) xs ys → Repeats before (x :: xs) (x :: ys)
  | again {before : List α} {y : α} {xs ys : List α} :
      y ∈ before → Repeats before xs ys → Repeats before xs (y :: ys)

namespace Repeats

variable {α : Type} {before before' xs xs' ys ys' : List α}

theorem mono (h : Repeats before xs ys) (hb : before ⊆ before') : Repeats before' xs ys := by
  induction h generalizing before' with
  | nil => exact .nil before'
  | keep _ ih => exact .keep (ih (List.cons_subset_cons _ hb))
  | again hy _ ih => exact .again (hb hy) (ih hb)

theorem refl (before xs : List α) : Repeats before xs xs := by
  induction xs generalizing before with
  | nil => exact .nil before
  | cons x xs ih => exact .keep (ih (x :: before))

theorem append (h : Repeats before xs ys) (h' : Repeats [] xs' ys') :
    Repeats before (xs ++ xs') (ys ++ ys') := by
  induction h with
  | nil before => exact h'.mono (List.nil_subset before)
  | keep _ ih => exact .keep ih
  | again hy _ ih => exact .again hy ih

theorem concat {x : α} (h : x ∈ before ∨ x ∈ xs) : Repeats before xs (xs ++ [x]) := by
  induction xs generalizing before with
  | nil => exact .again (h.resolve_right List.not_mem_nil) (.nil before)
  | cons y xs ih =>
    refine .keep (ih ?_)
    rcases h with h | h
    · exact .inl (List.mem_cons_of_mem y h)
    · rcases List.mem_cons.mp h with rfl | h
      · exact .inl List.mem_cons_self
      · exact .inr h

theorem map {β : Type} (f : α → β) (h : Repeats before xs ys) :
    Repeats (before.map f) (xs.map f) (ys.map f) := by
  induction h with
  | nil before => exact .nil _
  | keep _ ih => exact .keep ih
  | again hy _ ih => exact .again (List.mem_map_of_mem hy) ih

theorem mem_or_iff (h : Repeats before xs ys) (a : α) :
    a ∈ before ∨ a ∈ ys ↔ a ∈ before ∨ a ∈ xs := by
  induction h with
  | nil before => exact Iff.rfl
  | keep _ ih => simpa only [List.mem_cons, or_assoc, or_left_comm] using ih
  | again hy _ ih =>
    rw [← ih, List.mem_cons]
    constructor
    · rintro (h | rfl | h)
      · exact .inl h
      · exact .inl hy
      · exact .inr h
    · exact fun h => h.imp_right .inr

end Repeats

/-! ## Searches that differ in repetitions -/

/-- The visits differ in their trees only. -/
structure Visit.Alike (v v' : Visit) : Prop where
  path : v'.path = v.path
  steps : v'.steps = v.steps
  cut : v'.cut = v.cut
  memo : v'.memo = v.memo

/-- Trying replacements once more changes nothing but the tree. Those that came before are settled,
and `cut` says whether they were cut. -/
theorem tryAll_repeats {visit visit' : Form → Memo → Visit}
    (halike : ∀ form memo, (visit form memo).Alike (visit' form memo))
    (hgrows : ∀ form memo, Extends (visit form memo).memo memo)
    (hagain : ∀ form memo, (visit form memo).path = none →
      Settled visit (visit form memo).memo (visit form memo).cut form)
    {before rs rs' : List Replacement} (h : Repeats before rs rs') {cut : Bool} {memo : Memo}
    (hbefore : ∀ r ∈ before, Settled visit memo cut r.target) :
    (tryAll visit' rs' memo).path = (tryAll visit rs memo).path ∧
      (tryAll visit' rs' memo).steps = (tryAll visit rs memo).steps ∧
      (tryAll visit' rs' memo).memo = (tryAll visit rs memo).memo ∧
      (cut || (tryAll visit' rs' memo).cut) = (cut || (tryAll visit rs memo).cut) := by
  induction h generalizing cut memo with
  | nil => exact ⟨rfl, rfl, rfl, rfl⟩
  | @keep before r rs rs' _ ih =>
    obtain ⟨hpath, hsteps, hcut, hmemo⟩ := halike r.target memo
    cases hp : (visit r.target memo).path with
    | some path =>
      rw [tryAll_of_some hp, tryAll_of_some (hpath.trans hp)]
      simp only [Visit.through, hsteps, hcut, hmemo, and_self]
    | none =>
      have hsettled : ∀ r' ∈ r :: before, Settled visit (visit r.target memo).memo
          (cut || (visit r.target memo).cut) r'.target := by
        refine List.forall_mem_cons.mpr ⟨?_, fun r' hr' => ?_⟩
        · exact (hagain r.target memo hp).extend (fun _ _ hf => hf) (by simp +contextual)
        · exact (hbefore r' hr').extend (hgrows r.target memo) (by simp +contextual)
      obtain ⟨hpath', hsteps', hmemo', hcut'⟩ := ih hsettled
      rw [tryAll_of_none hp, tryAll_of_none (hpath.trans hp)]
      simp only [Visit.andThen, hsteps, hcut, hmemo, hpath', hsteps', hmemo', true_and]
      rw [← Bool.or_assoc, hcut', Bool.or_assoc]
  | @again before r rs rs' hr _ ih =>
    obtain ⟨c, hskip, hc⟩ := hbefore r hr memo fun _ _ hf => hf
    obtain ⟨hpath, hsteps, hcut, hmemo⟩ := halike r.target memo
    rw [hskip] at hpath hsteps hcut hmemo
    obtain ⟨hpath', hsteps', hmemo', hcut'⟩ := ih hbefore
    rw [tryAll_of_none hpath]
    simp only [Visit.andThen, hsteps, hcut, hmemo, Visit.skip, List.nil_append]
    refine ⟨hpath', hsteps', hmemo', ?_⟩
    rw [← Bool.or_assoc, ← hcut']
    cases c with
    | false => rw [Bool.or_false]
    | true => rw [hc rfl, Bool.or_true]

/-- The second query is about the same word and lists replacements more often. -/
structure Query.Repeats (q q' : Query) : Prop where
  word : q'.word = q.word
  minLength : q'.minLength = q.minLength
  replacements : ∀ f, Search.Repeats [] (q.replacements f) (q'.replacements f)

/-- **A search in which replacements come again** goes the same way. -/
theorem explore_repeats {q q' : Query} (h : q.Repeats q') (left depth : Nat) (form : Form)
    (memo : Memo) : (explore q left depth form memo).Alike (explore q' left depth form memo) := by
  induction left generalizing depth form memo with
  | zero => exact ⟨rfl, rfl, rfl, rfl⟩
  | succ left ih =>
    have hgrows := fun form memo => (explore_noted (q := q) left (depth + 1) form memo).grows
    have hbefore : ∀ r ∈ ([] : List Replacement),
        Settled (explore q left (depth + 1)) memo false r.target := nofun
    have tried := tryAll_repeats (ih (depth + 1)) hgrows (explore_again left (depth + 1))
      (h.replacements form) hbefore
    simp only [Bool.false_or] at tried
    obtain ⟨hpath, hsteps, hmemo, hcut⟩ := tried
    rw [explore, explore, h.word, h.minLength]
    split
    · exact ⟨rfl, rfl, rfl, rfl⟩
    split
    · exact ⟨rfl, rfl, rfl, rfl⟩
    split
    · exact ⟨rfl, rfl, rfl, rfl⟩
    split
    · exact ⟨rfl, rfl, rfl, rfl⟩
    · exact ⟨hpath, by simp only [hsteps], hcut, by simp only [hpath, hmemo]⟩

end Search

open Search

namespace Grammar

variable {g : Grammar} {x : Char} {body : Form}

/-! ## Grammars that give a production again -/

/-- More productions make more nonterminals nullable. -/
theorem nullable_mono {h : Grammar} (hp : g.productions ⊆ h.productions) :
    g.nullable ⊆ h.nullable :=
  nullable_induction fun x bodies hr b hb hn => by
    have hmem := hp (mem_productions_iff.mpr ⟨bodies, hr, hb⟩)
    obtain ⟨bodies', hr', hb'⟩ := mem_productions_iff.mp hmem
    exact mem_nullable_of_body hr' hb' hn

/-- The second grammar has the same symbols and start, and lists the bodies of each nonterminal more
often. -/
structure Repeats (g g' : Grammar) : Prop where
  wellFormed : g'.WellFormed
  startForm : g'.startForm = g.startForm
  nonterminals : g'.nonterminals = g.nonterminals
  rulesFor : ∀ x, Search.Repeats [] (g.rulesFor x) (g'.rulesFor x)

namespace Repeats

variable {g' : Grammar} (h : g.Repeats g') (hg : g.WellFormed)

include h

theorem replacementsAfter (before f : Form) :
    Search.Repeats [] (g.replacementsAfter before f) (g'.replacementsAfter before f) := by
  induction f generalizing before with
  | nil => exact .nil []
  | cons x after ih =>
    rw [Grammar.replacementsAfter, Grammar.replacementsAfter, h.nonterminals]
    refine .append ?_ (ih _)
    split
    · exact (h.rulesFor x).map _
    · exact .nil []

include hg

theorem mem_productions (p : Char × Form) : p ∈ g'.productions ↔ p ∈ g.productions := by
  rw [← mem_rulesFor_iff h.wellFormed, ← mem_rulesFor_iff hg]
  simpa using (h.rulesFor p.1).mem_or_iff p.2

theorem minLength_eq : minLength g'.nullable = minLength g.nullable := by
  have hnull : ∀ c, c ∈ g'.nullable ↔ c ∈ g.nullable := fun c =>
    ⟨fun hc => nullable_mono (fun p => (h.mem_productions hg p).mp) hc,
      fun hc => nullable_mono (fun p => (h.mem_productions hg p).mpr) hc⟩
  funext f
  simp only [minLength, List.contains_eq_mem, hnull]

theorem search_alike (w : Form) (bound : Nat) : (g.search w bound).Alike (g'.search w bound) := by
  rw [search, search, h.startForm]
  have hq : (g.query w).Repeats (g'.query w) := ⟨rfl, h.minLength_eq hg, h.replacementsAfter []⟩
  exact explore_repeats hq (bound + 1) 0 g.startForm ∅

end Repeats

/-- A production that is given again is accepted, and stands once more at the end of its group. -/
theorem gains_repeated (hg : g.WellFormed) (hb : body ∈ g.rulesFor x) :
    ∃ g', g.Gains (.production (.text [x]) (.text body.text)) g' ∧ g.Repeats g' ∧
      ∀ y, g'.rulesFor y = if y = x then g.rulesFor x ++ [body] else g.rulesFor y := by
  obtain ⟨bodies, hr, hbody⟩ := mem_productions_iff.mp ((mem_rulesFor_iff hg).mp hb)
  have hx : x ∈ g.nonterminals := hg.keys_mem x (List.mem_map_of_mem hr)
  have hgains := gains_appendRule hg hx (hg.declared _ hr body hbody)
  have hrules := fun y => rulesFor_appendRule g x y body
  have hwell := hg.edit (.production (.text [x]) (.text body.text))
  rw [hg.edit_eq_iff.mpr hgains] at hwell
  refine ⟨_, hgains, ⟨hwell, rfl, rfl, fun y => ?_⟩, hrules⟩
  rw [hrules y]
  split
  · next hy =>
    subst hy
    exact .concat (.inr hb)
  · exact .refl [] _

end Grammar

namespace Analysis

open Grammar

/-- **A production that is given again changes no answer.** It is accepted, and stands once more at
the end of the bodies of its left-hand side, where it was already. The analyses of any word under
any bound then have the same verdict and the same trace as before, and except for members, whose
tree has a node for each try, the same result. With an open log there are answers. -/
theorem run_repeated {g : Grammar} (hg : g.Reachable) (hv : g.isValid = true) {x : Char}
    {body : Form} (hb : body ∈ g.rulesFor x) :
    ∃ g', g.edit (.production (.text [x]) (.text body.text)) = (true, g') ∧
      (∀ y, g'.rulesFor y = if y = x then g.rulesFor x ++ [body] else g.rulesFor y) ∧
      g'.isValid = true ∧
      ∀ bound word,
        (∀ j, j.IsOpen → (∃ r, (run { grammar := g } bound word j).1 = .ok r) ∧
          ∃ r', (run { grammar := g' } bound word j).1 = .ok r') ∧
        ∀ j j' r r', (run { grammar := g } bound word j).1 = .ok r →
          (run { grammar := g' } bound word j').1 = .ok r' →
          r'.verdict = r.verdict ∧ r'.trace = r.trace ∧ (r.verdict ≠ .member → r' = r) := by
  obtain ⟨g', hgains, hrepeats, hrules⟩ := gains_repeated hg.wellFormed hb
  have hv' : g'.isValid = true := hgains.isValid hv
  refine ⟨g', hg.wellFormed.edit_eq_iff.mpr hgains, hrules, hv', fun bound word => ⟨fun j hj =>
    ⟨exists_run _ bound word hj, exists_run _ bound word hj⟩, fun j j' r r' hr hr' => ?_⟩⟩
  obtain ⟨hpath, hsteps, hcut, -⟩ := hrepeats.search_alike hg.wellFormed word bound
  have hverdict : (g'.search word bound).verdict = (g.search word bound).verdict := by
    rw [Visit.verdict, Visit.verdict, hpath, hcut]
  rw [result_of_isValid hv hr, result_of_isValid hv' hr', verdict_ofVisit, verdict_ofVisit,
    trace_ofVisit, trace_ofVisit, hsteps]
  refine ⟨hverdict, rfl, fun hm => ?_⟩
  simp only [Result.ofVisit, Result.make, hverdict, hm, ↓reduceIte, hsteps]

/-- `S -> SS` is given again. For `aa` the search takes the same six steps; the tree has five nodes
more, for the tries that were silent. -/
theorem run_repeated_doubling :
    ['S', 'S'] ∈ doubling.rulesFor 'S' ∧
      ∃ g' r r', doubling.edit (.production (.text ['S']) (.text ['S', 'S'])) = (true, g') ∧
        g'.rulesFor 'S' = [['S', 'S'], ['a'], [], ['S', 'S']] ∧
        (run { grammar := doubling } 3 ['a', 'a'] none).1 = .ok r ∧
        (run { grammar := g' } 3 ['a', 'a'] none).1 = .ok r' ∧
        r.verdict = .member ∧ r'.verdict = .member ∧ r.trace.length = 6 ∧ r'.trace = r.trace ∧
        r.tree.map Tree.weight = some 21 ∧ r'.tree.map Tree.weight = some 26 := by
  have hb : ['S', 'S'] ∈ doubling.rulesFor 'S' := by decide
  obtain ⟨g', hedit, hrules, hv', same⟩ := run_repeated doubling_reachable (by decide) hb
  obtain ⟨answers, compare⟩ := same 3 ['a', 'a']
  obtain ⟨⟨r, hr⟩, r', hr'⟩ := answers none Journal.isOpen_none
  obtain ⟨hverdict, htrace, -⟩ := compare none none r r' hr hr'
  obtain rfl : (doubling.edit (.production (.text ['S']) (.text ['S', 'S']))).2 = g' :=
    congrArg Prod.snd hedit
  have hresult := result_of_isValid (by decide) hr
  have hmember : r.verdict = .member := by
    rw [hresult]
    decide
  refine ⟨hb, _, r, r', hedit, by decide, hr, hr', hmember, hverdict.trans hmember, ?_, htrace,
    ?_, ?_⟩
  · rw [hresult]
    decide
  · rw [hresult]
    decide
  · rw [result_of_isValid hv' hr']
    decide

end Analysis

end FormalGrammar
