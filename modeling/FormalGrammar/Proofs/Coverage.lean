import FormalGrammar.Proofs.Sameness
import Mathlib.Data.Nat.Find

/-!
# What a general tree covers

A general tree stops in two ways: after a number of levels, and at a nonterminal that it has
expanded above on the same path. The second hides nothing. A production is shown in the tree
exactly if its left-hand side can be reached from the start symbol in fewer occurrence steps than
there are levels (`Exploration.run_covers`).

The guard is met with a chain that is as short as possible: no symbol on such a chain is as close
to its end as the symbols after it, so none of them comes again (`guarded_of_descends`).
-/

namespace FormalGrammar

/-! ## Nodes -/

namespace Tree

/-- Whether one of the trees has a node with a label. -/
def Shows (ts : List Tree) (label : Text) : Prop := ∃ u ∈ walk ts, u.label = label

@[simp] theorem not_shows_nil (label : Text) : ¬ Shows [] label := by
  simp [Shows, walk]

/-- A label of a tree is that of its root or is shown below it. -/
theorem exists_label_iff {t : Tree} {label : Text} :
    (∃ u ∈ t.nodes, u.label = label) ↔ t.label = label ∨ Shows t.children label := by
  obtain ⟨l, b, cs⟩ := t
  simp only [nodes_node, List.mem_cons, exists_eq_or_imp]
  exact Iff.rfl

theorem shows_iff {ts : List Tree} {label : Text} :
    Shows ts label ↔ ∃ t ∈ ts, t.label = label ∨ Shows t.children label := by
  constructor
  · rintro ⟨u, hu, hl⟩
    obtain ⟨t, ht, hu⟩ := mem_walk_iff.mp hu
    exact ⟨t, ht, exists_label_iff.mp ⟨u, hu, hl⟩⟩
  · rintro ⟨t, ht, h⟩
    obtain ⟨u, hu, hl⟩ := exists_label_iff.mpr h
    exact ⟨u, mem_walk_iff.mpr ⟨t, ht, hu⟩, hl⟩

end Tree

namespace Grammar

open FormalGrammar.Tree

variable {g : Grammar}

/-! ## Chains of occurrences -/

/-- `y` occurs in a body of `x`. -/
def Occurs (g : Grammar) (x y : Char) : Prop := ∃ body, (x, body) ∈ g.productions ∧ y ∈ body

/-- A chain of `n` occurrence steps leads from `x` to `y`. -/
inductive Descends (g : Grammar) : Nat → Char → Char → Prop
  | refl (x : Char) : Descends g 0 x x
  | step {x y z : Char} {n : Nat} : g.Occurs x y → Descends g n y z → Descends g (n + 1) x z

/-- A chain of fewer than `levels` steps that no symbol of `visited` is on, and no symbol twice. -/
inductive Guarded (g : Grammar) : (levels : Nat) → (visited : List Char) → Char → Char → Prop
  | here {levels : Nat} {visited : List Char} {x : Char} :
      x ∉ visited → Guarded g (levels + 1) visited x x
  | step {levels : Nat} {visited : List Char} {x y z : Char} :
      x ∉ visited → g.Occurs x y → Guarded g levels (x :: visited) y z →
      Guarded g (levels + 1) visited x z

theorem Guarded.descends {levels : Nat} {visited : List Char} {x y : Char}
    (h : g.Guarded levels visited x y) : ∃ n < levels, g.Descends n x y := by
  induction h with
  | here _ => exact ⟨0, Nat.succ_pos _, .refl _⟩
  | step _ hxy _ ih =>
    obtain ⟨n, hn, hd⟩ := ih
    exact ⟨n + 1, Nat.succ_lt_succ hn, .step hxy hd⟩

/-- A chain of the least length passes the guard, if nothing that was visited is as close to its
end as its beginning is. -/
theorem guarded_of_descends {n levels : Nat} {visited : List Char} {x y : Char}
    (h : g.Descends n x y) (hn : n < levels) (hleast : ∀ m < n, ¬ g.Descends m x y)
    (hfar : ∀ v ∈ visited, ∀ m ≤ n, ¬ g.Descends m v y) : g.Guarded levels visited x y := by
  induction h generalizing levels visited with
  | refl x =>
    obtain ⟨levels, rfl⟩ := Nat.exists_eq_add_one.mpr hn
    exact .here fun hx => hfar x hx 0 (Nat.le_refl 0) (.refl x)
  | @step x z y n hxz hzy ih =>
    obtain ⟨levels, rfl⟩ := Nat.exists_eq_add_one.mpr (Nat.zero_lt_of_lt hn)
    have hx : x ∉ visited := fun hx => hfar x hx (n + 1) (Nat.le_refl _) (.step hxz hzy)
    refine .step hx hxz (ih (Nat.lt_of_succ_lt_succ hn) (fun m hm hd => ?_) fun v hv m hm => ?_)
    · exact hleast (m + 1) (Nat.succ_lt_succ hm) (.step hxz hd)
    · rcases List.mem_cons.mp hv with rfl | hv
      · exact hleast m (Nat.lt_succ_of_le hm)
      · exact hfar v hv m (Nat.le_succ_of_le hm)

/-- **The guard stops no chain for good**: where there is a chain, there is one that repeats
nothing. -/
theorem guarded_iff_descends {levels : Nat} {x y : Char} :
    g.Guarded levels [] x y ↔ ∃ n < levels, g.Descends n x y := by
  classical
  refine ⟨Guarded.descends, ?_⟩
  rintro ⟨n, hn, hd⟩
  have hex : ∃ n, g.Descends n x y := ⟨n, hd⟩
  have hlt : Nat.find hex < levels := Nat.lt_of_le_of_lt (Nat.find_min' hex hd) hn
  exact guarded_of_descends (Nat.find_spec hex) hlt (fun m hm => Nat.find_min hex hm)
    fun v hv => absurd hv List.not_mem_nil

/-! ## Expanding -/

theorem generalTree_of_start {s : Char} (hs : g.start = some s) (levels : Nat) :
    g.generalTree levels = .node [s] false (g.expand levels [] s) := by
  rw [generalTree, startForm_of_start hs, hs, Option.toList_some, List.flatMap_singleton]

/-- What leads to a production has a production itself. -/
theorem Guarded.exists_production {levels : Nat} {visited : List Char} {x y : Char} {body : Form}
    (h : g.Guarded levels visited x y) (hy : (y, body) ∈ g.productions) :
    ∃ b, (x, b) ∈ g.productions := by
  cases h with
  | here _ => exact ⟨body, hy⟩
  | step _ hxz _ =>
    obtain ⟨b, hb, -⟩ := hxz
    exact ⟨b, hb⟩

theorem notMem_terminals_of_production (hg : g.WellFormed) {x : Char} {body : Form}
    (h : (x, body) ∈ g.productions) : x ∉ g.terminals := by
  obtain ⟨bodies, hr, -⟩ := mem_productions_iff.mp h
  intro hx
  exact hg.disjoint x hx (hg.keys_mem x (List.mem_map_of_mem hr))

/-- One level of an expansion: the productions of the symbol, and what their bodies show. -/
theorem shows_expand_succ_iff {label : Text} (hl : ∀ c, [c] ≠ label) {levels : Nat}
    {visited : List Char} {x : Char} (hx : x ∉ visited) :
    Shows (g.expand (levels + 1) visited x) label ↔ ∃ body ∈ g.rulesFor x,
      productionText x body = label ∨
        ∃ c ∈ body, c ∉ g.terminals ∧ Shows (g.expand levels (x :: visited) c) label := by
  have hbelow : ∀ body : Form, Shows (body.map fun c =>
      if g.terminals.contains c then .leaf [c] true
      else .node [c] false (g.expand levels (x :: visited) c)) label ↔
        ∃ c ∈ body, c ∉ g.terminals ∧ Shows (g.expand levels (x :: visited) c) label := by
    intro body
    rw [shows_iff]
    simp only [List.mem_map, exists_exists_and_eq_and]
    refine exists_congr fun c => and_congr_right fun _ => ?_
    by_cases hc : c ∈ g.terminals
    · simp [hc, leaf, Tree.label, children, hl c]
    · simp [hc, Tree.label, children, hl c]
  have hnot : visited.contains x = false := by simpa using hx
  rw [expand, hnot, if_neg Bool.false_ne_true, shows_iff]
  simp only [List.mem_map, exists_exists_and_eq_and, Tree.label, children, hbelow]

/-- **The labels below a nonterminal**, but for those of single symbols, are the productions that
guarded chains lead to. -/
theorem shows_expand_iff (hg : g.WellFormed) {label : Text} (hl : ∀ c, [c] ≠ label)
    (levels : Nat) (visited : List Char) (x : Char) :
    Shows (g.expand levels visited x) label ↔
      ∃ y body, (y, body) ∈ g.productions ∧ productionText y body = label ∧
        g.Guarded levels visited x y := by
  induction levels generalizing visited x with
  | zero =>
    refine ⟨fun h => absurd h (not_shows_nil label), ?_⟩
    rintro ⟨y, body, -, -, h⟩
    cases h
  | succ levels ih =>
    by_cases hx : x ∈ visited
    · have hnil : g.expand (levels + 1) visited x = [] := by simp [expand, hx]
      rw [hnil]
      refine ⟨fun h => absurd h (not_shows_nil label), ?_⟩
      rintro ⟨y, body, -, -, hn | ⟨hn, -, -⟩⟩
      · exact absurd hx hn
      · exact absurd hx hn
    rw [shows_expand_succ_iff hl hx]
    simp only [mem_rulesFor_iff hg, ih]
    constructor
    · rintro ⟨body, hb, he | ⟨c, hc, -, y, b, hy, he, hchain⟩⟩
      · exact ⟨x, body, hb, he, .here hx⟩
      · exact ⟨y, b, hy, he, .step hx ⟨body, hb, hc⟩ hchain⟩
    · rintro ⟨y, b, hy, he, _ | ⟨-, ⟨body, hb, hc⟩, hchain⟩⟩
      · exact ⟨b, hy, .inl he⟩
      · -- The next symbol of the chain is expanded, because it has productions.
        obtain ⟨b', hb'⟩ := hchain.exists_production hy
        exact ⟨body, hb, .inr ⟨_, hc, notMem_terminals_of_production hg hb', y, b, hy, he, hchain⟩⟩

end Grammar

namespace Exploration

open FormalGrammar.Grammar FormalGrammar.Tree

/-- **The productions of a general tree** are those that can be reached from the start symbol in
fewer steps than there are levels, of which there may be any integer number, but with a log only one
that has a numeral. -/
theorem run_covers {g : Grammar} (hg : g.Reachable) (hv : g.isValid = true) (levels : Int)
    {j : Journal} (hj : j.IsOpen) (hn : IsNotable j levels) :
    ∃ (s : Char) (t : Tree), g.start = some s ∧ (run { grammar := g } levels j).1 = .ok t ∧
      ∀ x rhs, (∃ u ∈ t.nodes, u.label = x :: " -> ".toList ++ rhs) ↔
        (∃ body, (x, body) ∈ g.productions ∧ body.text = rhs) ∧
          ∃ n : Nat, n < levels ∧ g.Descends n s x := by
  obtain ⟨s, hs⟩ := start_of_isValid hv
  refine ⟨s, _, hs, run_of_isOpen hv hj hn, fun x rhs => ?_⟩
  have hl : ∀ c, [c] ≠ x :: " -> ".toList ++ rhs := by simp
  have hinj : ∀ y (body : Form), productionText y body = x :: " -> ".toList ++ rhs ↔
      y = x ∧ body.text = rhs := by
    simp [productionText]
  have hlt : ∀ n : Nat, n < levels.toNat ↔ (n : Int) < levels := fun n => Int.lt_toNat
  calc (∃ u ∈ (g.generalTree levels.toNat).nodes, u.label = x :: " -> ".toList ++ rhs)
      ↔ Shows (g.expand levels.toNat [] s) (x :: " -> ".toList ++ rhs) := by
        rw [exists_label_iff, generalTree_of_start hs]
        exact or_iff_right (hl s)
    _ ↔ ∃ y body, (y, body) ∈ g.productions ∧ (y = x ∧ body.text = rhs) ∧
          ∃ n < levels.toNat, g.Descends n s y := by
        simp only [shows_expand_iff hg.wellFormed hl, hinj, guarded_iff_descends]
    _ ↔ _ := by
        simp only [hlt]
        constructor
        · rintro ⟨y, body, hp, ⟨rfl, hb⟩, hd⟩
          exact ⟨⟨body, hp, hb⟩, hd⟩
        · rintro ⟨⟨body, hp, hb⟩, hd⟩
          exact ⟨x, body, hp, ⟨rfl, hb⟩, hd⟩

/-- `S -> aA | ε`, `A -> SB` and `B -> b`: a cycle on the way to the last production. -/
def cyclic : Grammar :=
  afterEdits {} [.terminal (.text ['a']), .terminal (.text ['b']), .nonterminal (.text ['S']),
    .nonterminal (.text ['A']), .nonterminal (.text ['B']), .start (.text ['S']),
    .production (.text ['S']) (.text ['a', 'A']), .production (.text ['S']) (.text ['ε']),
    .production (.text ['A']) (.text ['S', 'B']), .production (.text ['B']) (.text ['b'])]

/-- The last production takes two steps, so that it is shown from three levels on. -/
theorem run_covers_cyclic :
    (∃ t, (run { grammar := cyclic } 3 none).1 = .ok t ∧
      ∃ u ∈ t.nodes, u.label = "B -> b".toList) ∧
    ∃ t, (run { grammar := cyclic } 2 none).1 = .ok t ∧
      ¬ ∃ u ∈ t.nodes, u.label = "B -> b".toList := by
  have hcover := fun levels => run_covers (g := cyclic) (Reachable.empty.afterEdits _) (by decide)
    levels Journal.isOpen_none (.inl rfl)
  have hSA : cyclic.Occurs 'S' 'A' := ⟨['a', 'A'], by decide, by decide⟩
  have hAB : cyclic.Occurs 'A' 'B' := ⟨['S', 'B'], by decide, by decide⟩
  constructor
  · obtain ⟨s, t, hs, ht, hshown⟩ := hcover 3
    cases hs
    refine ⟨t, ht, (hshown 'B' ['b']).mpr ⟨⟨['b'], by decide, rfl⟩, 2, by decide, ?_⟩⟩
    exact .step hSA (.step hAB (.refl 'B'))
  · obtain ⟨s, t, hs, ht, hshown⟩ := hcover 2
    cases hs
    refine ⟨t, ht, fun h => ?_⟩
    obtain ⟨-, n, hn, hd⟩ := (hshown 'B' ['b']).mp h
    -- No body of `S` holds a `B`, so one step is too few.
    cases hd with
    | step hz hd =>
      cases hd with
      | refl =>
        obtain ⟨body, hp, hB⟩ := hz
        have hnone : ∀ p ∈ cyclic.productions, p.1 = 'S' → 'B' ∉ p.2 := by decide
        exact hnone _ hp rfl hB
      | step _ _ => omega

end Exploration

end FormalGrammar
