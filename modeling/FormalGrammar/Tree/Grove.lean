import FormalGrammar.Tree.Basic

/-!
# Groves

A grove holds nodes that know their children by number, so that one node can be a child of
several others and a child added to it is seen from all of them. A tree is read back from
a node by following the numbers; on a grove without cycles no path is longer than the
number of nodes.
-/

namespace FormalGrammar

/-- A node that refers to its children by number. -/
structure Grove.Node where
  label : Text
  terminal : Bool
  children : List Nat

structure Grove where
  nodes : Array Grove.Node := #[]

namespace Grove

def add (g : Grove) (label : Text) (terminal : Bool) (children : List Nat) : Nat × Grove :=
  (g.nodes.size, ⟨g.nodes.push ⟨label, terminal, children⟩⟩)

mutual

/-- Add all nodes of a tree and tell the number of its root. -/
def plant (g : Grove) : Tree → Nat × Grove
  | .node label terminal children =>
    let (ids, g) := plantAll g children
    g.add label terminal ids

def plantAll (g : Grove) : List Tree → List Nat × Grove
  | [] => ([], g)
  | t :: ts =>
    let (id, g) := plant g t
    let (ids, g) := plantAll g ts
    (id :: ids, g)

end

/-- Append a child to a node. -/
def adopt (g : Grove) (parent child : Nat) : Grove :=
  ⟨g.nodes.modify parent fun n => { n with children := n.children ++ [child] }⟩

/-- The tree below a node, followed for at most `fuel` levels. -/
def follow (g : Grove) : Nat → Nat → Tree
  | 0, _ => default
  | fuel + 1, id =>
    match g.nodes[id]? with
    | none => default
    | some n => .node n.label n.terminal (n.children.map (g.follow fuel))

def tree (g : Grove) (id : Nat) : Tree := g.follow (g.nodes.size + 1) id

/-- The numbers of the nodes below and including a node, in pre-order. -/
def followNumbers (g : Grove) : Nat → Nat → List Nat
  | 0, _ => []
  | fuel + 1, id => id :: ((g.nodes[id]?.map (·.children)).getD []).flatMap (g.followNumbers fuel)

def preorder (g : Grove) (id : Nat) : List Nat := g.followNumbers (g.nodes.size + 1) id

end Grove

end FormalGrammar
