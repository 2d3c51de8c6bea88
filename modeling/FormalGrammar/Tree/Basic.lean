import FormalGrammar.Text.Basic

/-!
# Labelled trees

Ordered trees whose nodes carry a label and say whether they hold a terminal symbol. The
nodes of a tree are listed in pre-order by `walk`, which keeps the subtrees still to be
visited on a stack; its measure is the number of nodes on that stack.
-/

namespace FormalGrammar

inductive Tree where
  | node (label : Text) (terminal : Bool) (children : List Tree)
  deriving Inhabited

namespace Tree

def label : Tree → Text
  | node l _ _ => l

def terminal : Tree → Bool
  | node _ t _ => t

def children : Tree → List Tree
  | node _ _ cs => cs

/-- A node without children. -/
def leaf (label : Text) (terminal : Bool) : Tree := node label terminal []

def isLeaf (t : Tree) : Bool := t.children.isEmpty

/-! ## Equality -/

mutual

def beq : Tree → Tree → Bool
  | node l t cs, node l' t' cs' => decide (l = l') && t == t' && beqAll cs cs'

def beqAll : List Tree → List Tree → Bool
  | [], [] => true
  | c :: cs, c' :: cs' => beq c c' && beqAll cs cs'
  | _, _ => false

end

mutual

theorem eq_of_beq : ∀ {t u : Tree}, beq t u = true → t = u
  | node l t cs, node l' t' cs', h => by
    simp only [beq, Bool.and_eq_true, decide_eq_true_eq, beq_iff_eq] at h
    rw [h.1.1, h.1.2, eq_of_beqAll h.2]

theorem eq_of_beqAll : ∀ {ts us : List Tree}, beqAll ts us = true → ts = us
  | [], [], _ => rfl
  | [], _ :: _, h => by simp [beqAll] at h
  | _ :: _, [], h => by simp [beqAll] at h
  | c :: cs, c' :: cs', h => by
    simp only [beqAll, Bool.and_eq_true] at h
    rw [eq_of_beq h.1, eq_of_beqAll h.2]

end

mutual

theorem beq_self : ∀ t : Tree, beq t t = true
  | node l t cs => by simp [beq, beqAll_self cs]

theorem beqAll_self : ∀ ts : List Tree, beqAll ts ts = true
  | [] => rfl
  | t :: ts => by simp [beqAll, beq_self t, beqAll_self ts]

end

instance : DecidableEq Tree := fun t u =>
  if h : beq t u = true then isTrue (eq_of_beq h)
  else isFalse fun e => h (e ▸ beq_self t)

/-! ## Measures -/

mutual

/-- The number of nodes. -/
def weight : Tree → Nat
  | node _ _ cs => 1 + weights cs

def weights : List Tree → Nat
  | [] => 0
  | t :: ts => weight t + weights ts

end

mutual

/-- The number of edges on the longest path down to a leaf. -/
def depth : Tree → Nat
  | node _ _ cs => depthBelow cs

def depthBelow : List Tree → Nat
  | [] => 0
  | t :: ts => max (depth t + 1) (depthBelow ts)

end

theorem weights_append (ts us : List Tree) : weights (ts ++ us) = weights ts + weights us := by
  induction ts with
  | nil => simp [weights]
  | cons t ts ih => simp [weights, ih, Nat.add_assoc]

/-! ## Pre-order -/

/-- Every node of the trees on a stack, in pre-order. -/
def walk : List Tree → List Tree
  | [] => []
  | node l t cs :: stack => node l t cs :: walk (cs ++ stack)
termination_by stack => weights stack
decreasing_by simp only [weights_append, weights, weight]; omega

def nodes (t : Tree) : List Tree := walk [t]

def size (t : Tree) : Nat := t.nodes.length

theorem walk_append (ts us : List Tree) : walk (ts ++ us) = walk ts ++ walk us := by
  fun_induction walk ts with
  | case1 => rfl
  | case2 l t cs stack ih =>
    rw [List.cons_append, walk, ← List.append_assoc, ih]
    rfl

theorem nodes_node (l : Text) (b : Bool) (cs : List Tree) :
    (node l b cs).nodes = node l b cs :: walk cs := by
  rw [nodes, walk, List.append_nil]

/-- The nodes on a stack are the nodes of the trees on it. -/
theorem mem_walk_iff {ts : List Tree} {u : Tree} : u ∈ walk ts ↔ ∃ t ∈ ts, u ∈ t.nodes := by
  induction ts with
  | nil => simp [walk]
  | cons t ts ih =>
    rw [← List.singleton_append, walk_append, List.mem_append, ih, List.singleton_append]
    simp only [List.mem_cons, exists_eq_or_imp, nodes]

end Tree

end FormalGrammar
