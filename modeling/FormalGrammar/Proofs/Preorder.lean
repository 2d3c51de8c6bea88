import FormalGrammar.Proofs.Drawing

/-!
# The nodes of a tree in pre-order

The nodes of a tree are listed by a loop that keeps the subtrees still to be visited on a stack. The
loop comes to an end, in one way only, and what it lists is the root followed by the nodes of each
child from left to right (`Iterates`, `walk_eq_flatMap`). With their positions, which tell which
child to take on each level, the nodes stand in lexicographic order, every position once (`placed`).
The length of a position is the level of its node, by which the lines of a drawing are indented.

Main statement: `Tree.iterated`.
-/

namespace FormalGrammar.Tree

/-! ## The loop -/

/-- The lists that the loop gives for a stack whose top is its last tree: the tree on top is listed
next, and its children take its place in reverse, so that the first of them is on top. -/
inductive Iterates : List Tree → List Tree → Prop
  | done : Iterates [] []
  | next {t : Tree} {stack listed : List Tree} : Iterates (stack ++ t.children.reverse) listed →
      Iterates (stack ++ [t]) (t :: listed)

theorem iterates_walk (ts : List Tree) : Iterates ts.reverse (walk ts) := by
  fun_induction walk ts with
  | case1 => exact .done
  | case2 l b cs stack ih =>
    rw [List.reverse_append] at ih
    rw [List.reverse_cons]
    exact .next ih

theorem Iterates.eq_walk {stack listed : List Tree} (h : Iterates stack listed) :
    listed = walk stack.reverse := by
  induction h with
  | done => rw [List.reverse_nil, walk]
  | @next t stack listed _ ih =>
    obtain ⟨l, b, cs⟩ := t
    rw [List.reverse_append, List.reverse_reverse] at ih
    rw [List.reverse_concat, walk, ih]
    rfl

/-- **The loop ends for every stack, with one list.** -/
theorem iterates_iff {stack listed : List Tree} :
    Iterates stack listed ↔ listed = walk stack.reverse := by
  constructor
  · exact Iterates.eq_walk
  · rintro rfl
    have h := iterates_walk stack.reverse
    rwa [List.reverse_reverse] at h

/-! ## The recursion -/

theorem walk_eq_flatMap (ts : List Tree) : walk ts = ts.flatMap nodes := by
  induction ts with
  | nil => rw [walk, List.flatMap_nil]
  | cons t ts ih => rw [← List.singleton_append, walk_append, ih, List.flatMap_append]; simp [nodes]

theorem length_walk (ts : List Tree) : (walk ts).length = weights ts := by
  fun_induction walk ts with
  | case1 => rfl
  | case2 l b cs stack ih =>
    rw [List.length_cons, ih, weights_append, weights, weight]
    omega

theorem size_eq_weight (t : Tree) : t.size = t.weight := by
  rw [size, nodes, length_walk, weights, weights, Nat.add_zero]

mutual

theorem depth_lt_weight : ∀ t : Tree, t.depth < t.weight
  | node l b cs => by
    have h := depthBelow_le_weights cs
    rw [depth, weight]
    omega

theorem depthBelow_le_weights : ∀ ts : List Tree, depthBelow ts ≤ weights ts
  | [] => Nat.le_refl 0
  | t :: ts => by
    have h := depth_lt_weight t
    have hs := depthBelow_le_weights ts
    rw [depthBelow, weights]
    omega

end

/-! ## Positions -/

/-- The node at a position, which tells from the root on which child to take. -/
def at? : List Nat → Tree → Option Tree
  | [], t => some t
  | i :: p, t => t.children[i]?.bind (at? p)

mutual

/-- Every node with its position: the root, and then the nodes of each child from left to right. -/
def placed : Tree → List (List Nat × Tree)
  | node l b cs => ([], node l b cs) :: placedFrom 0 cs

/-- The nodes of trees that are children from the `i`-th on. -/
def placedFrom (i : Nat) : List Tree → List (List Nat × Tree)
  | [] => []
  | t :: ts => (placed t).map (fun p => (i :: p.1, p.2)) ++ placedFrom (i + 1) ts

end

mutual

theorem map_snd_placed : ∀ t : Tree, (placed t).map Prod.snd = t.nodes
  | node l b cs => by rw [placed, nodes_node, List.map_cons, map_snd_placedFrom 0 cs]

theorem map_snd_placedFrom (i : Nat) : ∀ ts : List Tree, (placedFrom i ts).map Prod.snd = walk ts
  | [] => by rw [placedFrom, walk]; rfl
  | t :: ts => by
    rw [placedFrom, List.map_append, List.map_map, ← List.singleton_append, walk_append,
      map_snd_placedFrom (i + 1) ts, ← nodes, ← map_snd_placed t]
    rfl

end

mutual

theorem mem_placed_iff {p : List Nat} {u : Tree} : ∀ t : Tree, (p, u) ∈ placed t ↔ at? p t = some u
  | node l b cs => by
    rw [placed, List.mem_cons, mem_placedFrom_iff 0 cs]
    cases p with
    | nil => simp [at?, eq_comm]
    | cons i p => simp [at?, children, Option.bind_eq_some_iff]

theorem mem_placedFrom_iff {p : List Nat} {u : Tree} (i : Nat) :
    ∀ ts : List Tree, (p, u) ∈ placedFrom i ts ↔
      ∃ j q t, p = (i + j) :: q ∧ ts[j]? = some t ∧ at? q t = some u
  | [] => by simp [placedFrom]
  | t :: ts => by
    rw [placedFrom, List.mem_append, List.mem_map, mem_placedFrom_iff (i + 1) ts]
    constructor
    · rintro (⟨⟨q, v⟩, hv, heq⟩ | ⟨j, q, v, rfl, hj, hv⟩)
      · obtain ⟨rfl, rfl⟩ := Prod.mk.inj heq
        exact ⟨0, q, t, rfl, rfl, (mem_placed_iff t).mp hv⟩
      · exact ⟨j + 1, q, v, by rw [Nat.add_assoc, Nat.add_comm 1 j], hj, hv⟩
    · rintro ⟨j, q, v, rfl, hj, hv⟩
      cases j with
      | zero =>
        obtain rfl := Option.some.inj hj
        exact .inl ⟨(q, u), (mem_placed_iff t).mpr hv, rfl⟩
      | succ j => exact .inr ⟨j, q, v, by rw [Nat.add_assoc, Nat.add_comm 1 j], hj, hv⟩

end

/-- Lexicographic order of positions, where a node is before those below it. -/
def Before (p q : List Nat) : Prop := List.Lex (· < ·) p q

mutual

theorem pairwise_placed : ∀ t : Tree, (placed t).Pairwise fun p q => Before p.1 q.1
  | node l b cs => by
    rw [placed, List.pairwise_cons]
    refine ⟨fun q hq => ?_, pairwise_placedFrom 0 cs⟩
    obtain ⟨j, r, t, hr, -⟩ := (mem_placedFrom_iff 0 cs).mp hq
    rw [hr]
    exact .nil

theorem pairwise_placedFrom (i : Nat) :
    ∀ ts : List Tree, (placedFrom i ts).Pairwise fun p q => Before p.1 q.1
  | [] => .nil
  | t :: ts => by
    rw [placedFrom, List.pairwise_append, List.pairwise_map]
    refine ⟨(pairwise_placed t).imp fun h => .cons h, pairwise_placedFrom (i + 1) ts, ?_⟩
    intro p hp q hq
    obtain ⟨p, -, rfl⟩ := List.mem_map.mp hp
    obtain ⟨j, r, t, hr, -⟩ := (mem_placedFrom_iff (i + 1) ts).mp hq
    rw [hr]
    exact .rel (by omega)

end

/-! ## Levels -/

mutual

/-- The levels of the outline are the lengths of the positions. -/
theorem outline_eq_map (level : Nat) :
    ∀ t : Tree, outline level t = (placed t).map fun p => (level + p.1.length, p.2.label)
  | node l b cs => by
    rw [outline, placed, List.map_cons, outlineAll_eq_map level 0 cs]
    rfl

theorem outlineAll_eq_map (level i : Nat) :
    ∀ ts : List Tree,
      outlineAll (level + 1) ts = (placedFrom i ts).map fun p => (level + p.1.length, p.2.label)
  | [] => rfl
  | t :: ts => by
    rw [outlineAll, placedFrom, List.map_append, List.map_map, outline_eq_map (level + 1) t,
      outlineAll_eq_map level (i + 1) ts]
    congr 2
    funext p
    rw [Function.comp, List.length_cons, Nat.add_assoc, Nat.add_comm 1]

end

/-- A line that ends in the label of a node, after four characters for each of its levels. -/
def Draws (line : Text) (p : List Nat × Tree) : Prop :=
  ∃ indent, line = indent ++ p.2.label ∧ indent.length = 4 * p.1.length

/-- **The lines of a drawing are those of the nodes**, in the same order. -/
theorem lines_draw (t : Tree) : List.Forall₂ Draws t.lines (placed t) := by
  obtain ⟨l, b, cs⟩ := t
  have hreads := reads_childLines cs
  rw [outlineAll_eq_map 0 0, Reads, List.forall₂_map_right_iff] at hreads
  rw [lines, placed]
  refine .cons ⟨[], rfl, rfl⟩ (hreads.imp fun line p hp => ?_)
  obtain ⟨indent, hline, hlen, -⟩ := exists_indent hp
  exact ⟨indent, hline, by rw [hlen, Nat.zero_add]⟩

/-! ## The iteration -/

/-- **The loop over a tree ends**, and lists the root and then the nodes of each child from left to
right. Every position of the tree is passed once, in lexicographic order. There are as many nodes as
the recursion over the tree counts, more than there are levels below the root. If no label has a
line feed, each node has one line of the drawing, in the order of the loop. -/
theorem iterated (t : Tree) :
    (∀ listed, Iterates [t] listed ↔ listed = t.nodes) ∧
      t.nodes = t :: t.children.flatMap nodes ∧
      ((placed t).map Prod.snd = t.nodes ∧ (placed t).Pairwise (fun p q => Before p.1 q.1) ∧
        ∀ p u, (p, u) ∈ placed t ↔ at? p t = some u) ∧
      t.size = t.weight ∧ t.depth < t.size ∧
      (t.Drawable → ∃ lines, Text.splitOn '\n' t.render = lines ++ [[]] ∧ lines.length = t.size ∧
        List.Forall₂ Draws lines (placed t)) := by
  refine ⟨fun listed => iterates_iff, ?_, ⟨map_snd_placed t, pairwise_placed t, fun p u =>
    mem_placed_iff t⟩, size_eq_weight t, ?_, fun h => ?_⟩
  · obtain ⟨l, b, cs⟩ := t
    rw [nodes_node, walk_eq_flatMap, children]
  · rw [size_eq_weight]
    exact depth_lt_weight t
  · have hlines := lines_draw t
    refine ⟨t.lines, h.splitOn_render, ?_, hlines⟩
    rw [hlines.length_eq, size, ← map_snd_placed, List.length_map]

/-- A tree with three levels. -/
def branching : Tree :=
  .node ['a'] false [.node ['b'] false [.leaf ['c'] true], .leaf ['d'] true]

/-- The four nodes of the tree, with their positions, and the lines that draw them. -/
theorem iterated_branching :
    branching.Drawable ∧ Iterates [branching] ((placed branching).map Prod.snd) ∧
      (placed branching).map Prod.fst = [[], [0], [0, 0], [1]] ∧ branching.size = 4 ∧
      ∃ lines, Text.splitOn '\n' branching.render = lines ++ [[]] ∧ lines.length = 4 ∧
        List.Forall₂ Draws lines (placed branching) := by
  have hdrawable : branching.Drawable := by
    simp [Drawable, branching, nodes, walk, leaf, label]
  obtain ⟨hloop, -, ⟨hnodes, -, -⟩, hsize, -, hlines⟩ := iterated branching
  have hfour : branching.size = 4 := hsize
  obtain ⟨lines, hsplit, hlength, hdraw⟩ := hlines hdrawable
  exact ⟨hdrawable, (hloop _).mpr hnodes, rfl, hfour, lines, hsplit, hlength.trans hfour, hdraw⟩

end FormalGrammar.Tree
