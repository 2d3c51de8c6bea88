import FormalGrammar.Exploration
import FormalGrammar.Proofs.Verdicts

/-!
# The order of declaration does not count

Two grammars are the same if they have the same symbols, start and groups of rules, in whatever
order. What they are asked is then answered alike: the bodies for a symbol, since each has one
group; the nullable nonterminals, since they are the least closed set whatever the order of the
passes; and so the replacements in a form, the search, and the general tree.

The note on a general tree has the number of levels in it, so with a log there is an answer for a
number that has a numeral (`Exploration.IsNotable`) and none for another
(`Exploration.run_of_not_isShort`).

Main statement: `Grammar.runs_eq_of_sameAs`.
-/

namespace FormalGrammar

namespace Grammar

/-- The symbols, the start and the groups of rules are the same. -/
structure Same (g h : Grammar) : Prop where
  terminals : ∀ c, c ∈ g.terminals ↔ c ∈ h.terminals
  nonterminals : ∀ c, c ∈ g.nonterminals ↔ c ∈ h.nonterminals
  start : g.start = h.start
  rules : ∀ r, r ∈ g.rules ↔ r ∈ h.rules

variable {g h : Grammar}

/-! ## The test -/

theorem sameMembers_iff {xs ys : List Char} :
    sameAs.sameMembers xs ys = true ↔ ∀ c, c ∈ xs ↔ c ∈ ys := by
  simp only [sameAs.sameMembers, Bool.and_eq_true, List.all_eq_true, List.contains_eq_mem,
    decide_eq_true_eq]
  exact ⟨fun hs c => ⟨hs.1 c, hs.2 c⟩, fun hs => ⟨fun c => (hs c).mp, fun c => (hs c).mpr⟩⟩

theorem holdsAll_iff (hh : h.WellFormed) :
    sameAs.holdsAll g h = true ↔ ∀ r, r ∈ g.rules → r ∈ h.rules := by
  simp only [sameAs.holdsAll, List.all_eq_true, beq_iff_eq, lookup_eq_some_iff hh.keys_nodup]

/-- **The test of sameness** compares members, not positions. -/
theorem sameAs_iff (hg : g.WellFormed) (hh : h.WellFormed) : g.sameAs h = true ↔ g.Same h := by
  simp only [sameAs, Bool.and_eq_true, sameMembers_iff, holdsAll_iff hg, holdsAll_iff hh,
    beq_iff_eq]
  constructor
  · rintro ⟨⟨⟨⟨ht, hn⟩, hs⟩, hgh⟩, hhg⟩
    exact ⟨ht, hn, hs, fun r => ⟨hgh r, hhg r⟩⟩
  · rintro ⟨ht, hn, hs, hr⟩
    exact ⟨⟨⟨⟨ht, hn⟩, hs⟩, fun r => (hr r).mp⟩, fun r => (hr r).mpr⟩

/-! ## What a run depends on -/

theorem analysis_run_congr (hv : g.isValid = h.isValid) (hf : g.startForm = h.startForm)
    (hs : ∀ w bound, g.search w bound = h.search w bound) (o : Option Fault) (bound : Nat)
    (word : Text) (j : Journal) :
    Analysis.run ⟨g, o⟩ bound word j = Analysis.run ⟨h, o⟩ bound word j := by
  simp only [Analysis.run, Analysis.attempt, Analysis.search, hv, hs, hf]

theorem exploration_run_congr (hv : g.isValid = h.isValid)
    (ht : ∀ levels, g.generalTree levels = h.generalTree levels) (o : Option Fault) (levels : Int)
    (j : Journal) : Exploration.run ⟨g, o⟩ levels j = Exploration.run ⟨h, o⟩ levels j := by
  simp only [Exploration.run, hv, ht]

namespace Same

theorem symm (hs : g.Same h) : h.Same g :=
  ⟨fun c => (hs.terminals c).symm, fun c => (hs.nonterminals c).symm, hs.start.symm,
    fun r => (hs.rules r).symm⟩

/-! ## Answers -/

theorem contains_terminals (hs : g.Same h) (c : Char) :
    g.terminals.contains c = h.terminals.contains c := by
  simp only [List.contains_eq_mem, hs.terminals]

theorem contains_nonterminals (hs : g.Same h) (c : Char) :
    g.nonterminals.contains c = h.nonterminals.contains c := by
  simp only [List.contains_eq_mem, hs.nonterminals]

theorem startForm_eq (hs : g.Same h) : g.startForm = h.startForm := by
  rw [startForm, hs.start, startForm]

theorem isValid_eq (hs : g.Same h) : g.isValid = h.isValid := by
  have empty {α : Type} {xs ys : List α} (hm : ∀ a, a ∈ xs ↔ a ∈ ys) : xs.isEmpty = ys.isEmpty := by
    rw [Bool.eq_iff_iff, List.isEmpty_iff, List.isEmpty_iff, List.eq_nil_iff_forall_not_mem,
      List.eq_nil_iff_forall_not_mem]
    exact forall_congr' fun a => not_congr (hm a)
  rw [isValid, isValid, empty hs.terminals, empty hs.nonterminals, hs.start, empty hs.rules]

theorem rulesFor_eq (hs : g.Same h) (hg : g.WellFormed) (hh : h.WellFormed) (x : Char) :
    g.rulesFor x = h.rulesFor x := by
  have hl : g.rules.lookup x = h.rules.lookup x := by
    refine Option.ext fun bodies => ?_
    rw [lookup_eq_some_iff hg.keys_nodup, lookup_eq_some_iff hh.keys_nodup]
    exact hs.rules (x, bodies)
  rw [rulesFor, hl, rulesFor]

/-! ## Nullable nonterminals -/

/-- The nullable nonterminals of one grammar are closed under the rules of the other. -/
theorem nullable_subset (hs : g.Same h) : ∀ x ∈ g.nullable, x ∈ h.nullable :=
  nullable_induction fun _ _ hr _ hb hp => mem_nullable_of_body ((hs.rules _).mp hr) hb hp

theorem mem_nullable_iff (hs : g.Same h) (x : Char) : x ∈ g.nullable ↔ x ∈ h.nullable :=
  ⟨hs.nullable_subset x, hs.symm.nullable_subset x⟩

theorem minLength_eq (hs : g.Same h) : minLength g.nullable = minLength h.nullable := by
  funext f
  simp only [minLength, List.contains_eq_mem, hs.mem_nullable_iff]

/-! ## Searches -/

variable (hs : g.Same h) (hg : g.WellFormed) (hh : h.WellFormed)

include hs hg hh

theorem replacementsAfter_eq (before f : Form) :
    g.replacementsAfter before f = h.replacementsAfter before f := by
  induction f generalizing before with
  | nil => rfl
  | cons x after ih =>
    rw [replacementsAfter, replacementsAfter, ih, hs.contains_nonterminals,
      hs.rulesFor_eq hg hh]

theorem query_eq (w : Form) : g.query w = h.query w := by
  have hr : g.replacements = h.replacements := funext (hs.replacementsAfter_eq hg hh [])
  rw [query, query, hr, hs.minLength_eq]

theorem search_eq (w : Form) (bound : Nat) : g.search w bound = h.search w bound := by
  rw [search, search, hs.query_eq hg hh, hs.startForm_eq]

/-! ## General trees -/

theorem expand_eq (levels : Nat) (visited : List Char) (x : Char) :
    g.expand levels visited x = h.expand levels visited x := by
  induction levels generalizing visited x with
  | zero => rfl
  | succ levels ih => simp only [expand, hs.rulesFor_eq hg hh, hs.contains_terminals, ih]

theorem generalTree_eq (levels : Nat) : g.generalTree levels = h.generalTree levels := by
  have he : g.expand levels [] = h.expand levels [] := funext (hs.expand_eq hg hh levels [])
  rw [generalTree, generalTree, hs.startForm_eq, hs.start, he]

/-! ## Runs -/

theorem analysis_run_eq (o : Option Fault) (bound : Nat) (word : Text) (j : Journal) :
    Analysis.run ⟨g, o⟩ bound word j = Analysis.run ⟨h, o⟩ bound word j :=
  analysis_run_congr hs.isValid_eq hs.startForm_eq (hs.search_eq hg hh) o bound word j

theorem exploration_run_eq (o : Option Fault) (levels : Int) (j : Journal) :
    Exploration.run ⟨g, o⟩ levels j = Exploration.run ⟨h, o⟩ levels j :=
  exploration_run_congr hs.isValid_eq (hs.generalTree_eq hg hh) o levels j

end Same

end Grammar

/-! ## Notes on general trees -/

namespace Exploration

/-- A general tree can be noted: there is no log, or the number of levels has a numeral. -/
def IsNotable (j : Journal) (levels : Int) : Prop := j = none ∨ Numeral.Integer.IsShort levels

variable {g : Grammar} {levels : Int} {j : Journal}

theorem exists_noteMade (hj : j.IsOpen) (hn : IsNotable j levels) (t : Tree) :
    ∃ j', j.noteMade .debug (generated levels t) = .ok j' := by
  rcases hn with rfl | hn
  · exact ⟨none, rfl⟩
  · obtain ⟨message, hm⟩ := exists_generated hn t
    obtain ⟨j', hd, -⟩ := hj.note .debug message
    exact ⟨j', by rw [hm, Journal.noteMade_ok, hd]⟩

/-- With an open log, or none, the answer for a valid grammar is its general tree. -/
theorem run_of_isOpen (hv : g.isValid = true) (hj : j.IsOpen) (hn : IsNotable j levels) :
    (run { grammar := g } levels j).1 = .ok (g.generalTree levels.toNat) := by
  obtain ⟨j', hd⟩ := exists_noteMade hj hn (g.generalTree levels.toNat)
  simp [run, hv, hd]

/-- With a log, a number of levels without a numeral has no answer, and nothing is noted. -/
theorem run_of_not_isShort (hv : g.isValid = true) (hn : ¬ Numeral.Integer.IsShort levels)
    (l : Log) : run { grammar := g } levels (some l) = (.error .numeralTooLong, some l) := by
  have hgenerated (t : Tree) : generated levels t = .error .numeralTooLong := by
    rw [generated, numeral, if_neg hn]
    rfl
  simp [run, hv, Journal.noteMade, hgenerated]

/-- With an open log, or none, there is a general tree. -/
theorem exists_run (g : Grammar) (hj : j.IsOpen) (hn : IsNotable j levels) :
    ∃ t, (run { grammar := g } levels j).1 = .ok t := by
  cases hv : g.isValid with
  | false =>
    obtain ⟨j', hw, -⟩ := hj.note .warn "General tree requested for an invalid grammar".toList
    exact ⟨invalidTree, by simp only [run, hv, Bool.not_false, ↓reduceIte, hw]⟩
  | true => exact ⟨g.generalTree levels.toNat, run_of_isOpen hv hj hn⟩

end Exploration

namespace Grammar

/-- **Grammars that are the same behave the same.** They have the same nullable nonterminals and
are both valid or neither. For every word and bound their analyses come to the same result, with
the same verdict, trace and tree, and for every number of levels they have the same general tree;
the logs agree as well. With an open log, or none, there are answers, but with a log only for numbers
of levels that have numerals. -/
theorem runs_eq_of_sameAs {g h : Grammar} (hg : g.Reachable) (hh : h.Reachable)
    (hs : g.sameAs h = true) :
    (∀ x, x ∈ g.nullable ↔ x ∈ h.nullable) ∧ g.isValid = h.isValid ∧
      (∀ o bound word j, Analysis.run ⟨g, o⟩ bound word j = Analysis.run ⟨h, o⟩ bound word j) ∧
      (∀ o levels j, Exploration.run ⟨g, o⟩ levels j = Exploration.run ⟨h, o⟩ levels j) ∧
      ∀ j, j.IsOpen →
        (∀ bound word, ∃ r, (Analysis.run { grammar := g } bound word j).1 = .ok r) ∧
        ∀ levels, Exploration.IsNotable j levels →
          ∃ t, (Exploration.run { grammar := g } levels j).1 = .ok t := by
  have same := (sameAs_iff hg.wellFormed hh.wellFormed).mp hs
  exact ⟨same.mem_nullable_iff, same.isValid_eq,
    same.analysis_run_eq hg.wellFormed hh.wellFormed,
    same.exploration_run_eq hg.wellFormed hh.wellFormed,
    fun _ hj => ⟨fun bound word => Analysis.exists_run _ bound word hj,
      fun _ hn => Exploration.exists_run g hj hn⟩⟩

/-- `S -> AB`, `A -> a | ε` and `B -> ε`, with the start declared and given its rule first. -/
def topDown : Grammar :=
  afterEdits {} [.terminal (.text ['a']), .nonterminal (.text ['S']), .nonterminal (.text ['A']),
    .nonterminal (.text ['B']), .start (.text ['S']), .production (.text ['S']) (.text ['A', 'B']),
    .production (.text ['A']) (.text ['a']), .production (.text ['A']) (.text ['ε']),
    .production (.text ['B']) (.text ['ε'])]

/-- The same grammar, declared from the other end. -/
def bottomUp : Grammar :=
  afterEdits {} [.nonterminal (.text ['B']), .production (.text ['B']) (.text ['ε']),
    .nonterminal (.text ['A']), .terminal (.text ['a']), .production (.text ['A']) (.text ['a']),
    .production (.text ['A']) (.text ['ε']), .nonterminal (.text ['S']),
    .production (.text ['S']) (.text ['A', 'B']), .start (.text ['S'])]

/-- The nullable nonterminals are found in another order, and the search goes the same way. -/
theorem runs_eq_of_sameAs_topDown :
    topDown.sameAs bottomUp = true ∧ topDown.nullable = ['A', 'B', 'S'] ∧
      bottomUp.nullable = ['B', 'A', 'S'] ∧
      Analysis.run { grammar := topDown } 3 ['a'] none =
        Analysis.run { grammar := bottomUp } 3 ['a'] none ∧
      Exploration.run { grammar := topDown } 2 none =
        Exploration.run { grammar := bottomUp } 2 none := by
  have hs : topDown.sameAs bottomUp = true := by decide
  have hruns := runs_eq_of_sameAs (g := topDown) (h := bottomUp) (Reachable.empty.afterEdits _)
    (Reachable.empty.afterEdits _) hs
  exact ⟨hs, by decide, by decide, hruns.2.2.1 none 3 ['a'] none, hruns.2.2.2.1 none 2 none⟩

end Grammar

end FormalGrammar
