import FormalGrammar.Proofs.Gains
import FormalGrammar.Proofs.Sameness

/-!
# What additions change

A symbol that is declared without being used cannot be seen in an answer: the rules are looked up
for the symbols of a form, a new nonterminal has none, and a new terminal stands in no body. So
the search and the general tree stay as they are (`Widens.search_eq`, `Widens.generalTree_eq`).

A new rule changes the search everywhere, as it makes other nonterminals nullable and adds targets
that fill the memo. But it keeps every derivation (`Derives.mono`), and a search finds a path
wherever there is a derivation within the bound.

Main statement: `Grammar.runs_of_accepted`.
-/

namespace FormalGrammar

namespace Grammar

variable {g g' : Grammar}

/-! ## Symbols -/

/-- The second grammar may declare more symbols, but has the same start and rules. -/
structure Widens (g g' : Grammar) : Prop where
  terminals : g.terminals ⊆ g'.terminals
  nonterminals : g.nonterminals ⊆ g'.nonterminals
  start : g'.start = g.start
  rules : g'.rules = g.rules

/-- Only nonterminals have rules, so nothing is gained by asking for a nonterminal first. -/
theorem WellFormed.replacementsAfter_cons (hg : g.WellFormed) (before : Form) (x : Char)
    (after : Form) :
    g.replacementsAfter before (x :: after) =
      (g.rulesFor x).map (fun body => ⟨before, x, body, after⟩) ++
        g.replacementsAfter (before ++ [x]) after := by
  rw [replacementsAfter]
  split
  · rfl
  · next hx =>
    have hnone : g.rules.lookup x = none := by
      refine Option.eq_none_iff_forall_ne_some.mpr fun bodies hl => hx ?_
      have hm := (lookup_eq_some_iff hg.keys_nodup).mp hl
      simpa using hg.keys_mem x (List.mem_map_of_mem hm)
    rw [rulesFor, hnone]
    rfl

namespace Widens

theorem startForm_eq (hw : g.Widens g') : g'.startForm = g.startForm := by
  rw [startForm, hw.start, startForm]

theorem rulesFor_eq (hw : g.Widens g') (x : Char) : g'.rulesFor x = g.rulesFor x := by
  rw [rulesFor, hw.rules, rulesFor]

theorem nullable_eq (hw : g.Widens g') : g'.nullable = g.nullable := by
  rw [nullable, hw.rules, nullable]

variable (hw : g.Widens g') (hg : g.WellFormed) (hg' : g'.WellFormed)

include hw hg hg'

theorem replacementsAfter_eq (before f : Form) :
    g'.replacementsAfter before f = g.replacementsAfter before f := by
  induction f generalizing before with
  | nil => rfl
  | cons x after ih =>
    rw [hg'.replacementsAfter_cons, hg.replacementsAfter_cons, hw.rulesFor_eq, ih]

theorem search_eq (w : Form) (bound : Nat) : g'.search w bound = g.search w bound := by
  have hr : g'.replacements = g.replacements := funext (hw.replacementsAfter_eq hg hg' [])
  rw [search, search, query, query, hr, hw.nullable_eq, hw.startForm_eq]

/-- The symbols of a body were declared before, and are of the same kind since. -/
theorem contains_terminals {x c : Char} {body : Form} (hb : body ∈ g.rulesFor x) (hc : c ∈ body) :
    g'.terminals.contains c = g.terminals.contains c := by
  obtain ⟨bodies, hr, hb⟩ := mem_productions_iff.mp ((mem_rulesFor_iff hg).mp hb)
  rw [List.contains_eq_mem, List.contains_eq_mem]
  rcases declares_iff.mp (hg.declared _ hr body hb c hc) with ht | hn
  · simp only [ht, hw.terminals ht]
  · have ht : c ∉ g.terminals := fun ht => hg.disjoint c ht hn
    have ht' : c ∉ g'.terminals := fun ht => hg'.disjoint c ht (hw.nonterminals hn)
    simp only [ht, ht']

theorem expand_eq (levels : Nat) (visited : List Char) (x : Char) :
    g'.expand levels visited x = g.expand levels visited x := by
  induction levels generalizing visited x with
  | zero => rfl
  | succ levels ih =>
    simp only [expand, hw.rulesFor_eq, ih]
    split
    · rfl
    · refine List.map_congr_left fun body hb => congrArg _ (List.map_congr_left fun c hc => ?_)
      rw [hw.contains_terminals hg hg' hb hc]

theorem generalTree_eq (levels : Nat) : g'.generalTree levels = g.generalTree levels := by
  have he : g'.expand levels [] = g.expand levels [] := funext (hw.expand_eq hg hg' levels [])
  rw [generalTree, generalTree, hw.startForm_eq, hw.start, he]

end Widens

/-! ## Rules -/

/-- More nonterminals and productions allow every rewrite that was allowed. -/
theorem Rewrites.mono (hn : g.nonterminals ⊆ g'.nonterminals)
    (hp : g.productions ⊆ g'.productions) {f f' : Form} (h : g.Rewrites f f') :
    g'.Rewrites f f' := by
  cases h with
  | replace before x body after hx hb => exact .replace before x body after (hn hx) (hp hb)

theorem Derives.mono (hn : g.nonterminals ⊆ g'.nonterminals)
    (hp : g.productions ⊆ g'.productions) {n : Nat} {f f' : Form} (h : g.Derives n f f') :
    g'.Derives n f f' := by
  induction h with
  | refl f => exact .refl f
  | step hr _ ih => exact .step (hr.mono hn hp) ih

/-! ## Edits -/

namespace Gains

variable {e : Edit} {v lhs rhs : Value}

theorem isValid (h : g.Gains e g') (hv : g.isValid = true) : g'.isValid = true := by
  simp only [Grammar.isValid, Bool.and_eq_true, Bool.not_eq_true', List.isEmpty_eq_false_iff]
    at hv ⊢
  obtain ⟨⟨⟨ht, hn⟩, hs⟩, hr⟩ := hv
  cases h with
  | terminal => exact ⟨⟨⟨List.append_ne_nil_of_left_ne_nil ht _, hn⟩, hs⟩, hr⟩
  | nonterminal => exact ⟨⟨⟨ht, List.append_ne_nil_of_left_ne_nil hn _⟩, hs⟩, hr⟩
  | start => exact ⟨⟨⟨ht, hn⟩, rfl⟩, hr⟩
  | firstBody => exact ⟨⟨⟨ht, hn⟩, hs⟩, List.append_ne_nil_of_left_ne_nil hr _⟩
  | nextBody =>
    exact ⟨⟨⟨ht, hn⟩, hs⟩, List.append_ne_nil_of_right_ne_nil _ (List.cons_ne_nil _ _)⟩

theorem widens (h : g.Gains e g') (he : e = .terminal v ∨ e = .nonterminal v) : g.Widens g' := by
  rcases he with rfl | rfl
  · cases h
    exact ⟨List.subset_append_left _ _, List.Subset.refl _, rfl, rfl⟩
  · cases h
    exact ⟨List.Subset.refl _, List.subset_append_left _ _, rfl, rfl⟩

/-- A new body stands at the end of the rules or of its group, behind what was there. -/
theorem productions_subset (h : g.Gains (.production lhs rhs) g') :
    g'.startForm = g.startForm ∧ g'.nonterminals = g.nonterminals ∧
      g.productions ⊆ g'.productions := by
  cases h with
  | firstBody =>
    refine ⟨rfl, rfl, ?_⟩
    simp only [productions, List.flatMap_append]
    exact List.subset_append_left _ _
  | @nextBody x body bodies before after _ _ hgroup =>
    refine ⟨rfl, rfl, ?_⟩
    rintro ⟨y, b⟩ hp
    simp only [productions, hgroup, List.flatMap_append, List.flatMap_cons, List.map_append,
      List.mem_append] at hp ⊢
    rcases hp with hp | hp | hp
    · exact .inl hp
    · exact .inr (.inl (.inl hp))
    · exact .inr (.inr hp)

end Gains

/-- **What an accepted addition changes.** A valid grammar stays valid. After a symbol has been
declared, every analysis and every exploration comes to the same result as before, and writes the
same to the log. After a production has been added, a word that was a member under some bound still
is one under that bound. With an open log, or none, there are answers, but with a log only for
numbers of levels that have numerals. -/
theorem runs_of_accepted (hg : g.Reachable) (hv : g.isValid = true) {e : Edit}
    (he : g.edit e = (true, g')) :
    g'.isValid = true ∧
    (∀ v, e = .terminal v ∨ e = .nonterminal v →
      (∀ o bound word j, Analysis.run ⟨g', o⟩ bound word j = Analysis.run ⟨g, o⟩ bound word j) ∧
      ∀ o levels j, Exploration.run ⟨g', o⟩ levels j = Exploration.run ⟨g, o⟩ levels j) ∧
    (∀ lhs rhs, e = .production lhs rhs → ∀ bound word j j' r r',
      (Analysis.run { grammar := g } bound word j).1 = .ok r →
      (Analysis.run { grammar := g' } bound word j').1 = .ok r' →
      r.verdict = .member → r'.verdict = .member) ∧
    ∀ j, j.IsOpen →
      (∀ bound word, ∃ r, (Analysis.run { grammar := g' } bound word j).1 = .ok r) ∧
      ∀ levels, Exploration.IsNotable j levels →
        ∃ t, (Exploration.run { grammar := g' } levels j).1 = .ok t := by
  have hw := hg.wellFormed
  have hw' : g'.WellFormed := by
    have hkept := hw.edit e
    rw [he] at hkept
    exact hkept
  have hgains := hw.edit_eq_iff.mp he
  have hv' := hgains.isValid hv
  refine ⟨hv', fun v hsymbol => ?_, ?_, fun j hj =>
    ⟨fun bound word => Analysis.exists_run _ bound word hj,
      fun _ hn => Exploration.exists_run g' hj hn⟩⟩
  · have hwidens := hgains.widens hsymbol
    exact ⟨analysis_run_congr (hv'.trans hv.symm) hwidens.startForm_eq (hwidens.search_eq hw hw'),
      exploration_run_congr (hv'.trans hv.symm) (hwidens.generalTree_eq hw hw')⟩
  · rintro lhs rhs rfl bound word j j' r r' hr hr' hm
    obtain ⟨hstart, hn, hp⟩ := hgains.productions_subset
    rw [Analysis.result_of_isValid hv hr, Analysis.verdict_ofVisit,
      Search.Visit.verdict_eq_member_iff, search_path_isSome_iff hw] at hm
    obtain ⟨n, hle, hd⟩ := hm
    rw [Analysis.result_of_isValid hv' hr', Analysis.verdict_ofVisit,
      Search.Visit.verdict_eq_member_iff, search_path_isSome_iff hw', hstart]
    exact ⟨n, hle, hd.mono (hn ▸ List.Subset.refl _) hp⟩

/-- The grammar of pairs, and with the rule `A -> ε`, which makes `A` and `S` nullable: the search
for `bb` takes one step more, and finds it. -/
theorem runs_of_accepted_pairs :
    (∃ g', pairs.edit (.nonterminal (.text ['B'])) = (true, g') ∧ g' ≠ pairs ∧
      Analysis.run { grammar := g' } 3 ['b', 'B'] none =
        Analysis.run { grammar := pairs } 3 ['b', 'B'] none) ∧
    ∃ g' r', pairs.edit (.production (.text ['A']) (.text ['ε'])) = (true, g') ∧
      pairs.nullable = [] ∧ g'.nullable = ['A', 'S'] ∧
      (pairs.search ['b', 'b'] 3).steps.length = 8 ∧ (g'.search ['b', 'b'] 3).steps.length = 9 ∧
      (Analysis.run { grammar := g' } 3 ['b', 'b'] none).1 = .ok r' ∧ r'.verdict = .member := by
  have hv : pairs.isValid = true := by decide
  constructor
  · have he : pairs.edit (.nonterminal (.text ['B'])) =
        (true, { pairs with nonterminals := ['S', 'A', 'B'] }) := by decide
    obtain ⟨-, same, -⟩ := runs_of_accepted pairs_reachable hv he
    exact ⟨_, he, by decide, (same _ (.inr rfl)).1 none 3 ['b', 'B'] none⟩
  · have he : pairs.edit (.production (.text ['A']) (.text ['ε'])) =
        (true, { pairs with rules := [('S', [['A', 'A']]), ('A', [['a'], ['b'], []])] }) := by decide
    have hr := Analysis.run_of_isOpen hv 3 ['b', 'b'] Journal.isOpen_none
    obtain ⟨-, -, keeps, answers⟩ := runs_of_accepted pairs_reachable hv he
    obtain ⟨r', hr'⟩ := (answers none Journal.isOpen_none).1 3 ['b', 'b']
    exact ⟨_, r', he, by decide, by decide, by decide, by decide, hr',
      keeps _ _ rfl 3 _ none none _ r' hr hr' (by decide)⟩

end Grammar

end FormalGrammar
