import FormalGrammar.Tree.Grove
import FormalGrammar.Value.Basic

/-!
# Growing trees from values of any kind

A node is made from a label, a condition that says whether it holds a terminal symbol, and
children, which are the members of a value. Whole trees among them are planted; nodes of
the grove are shared.
-/

namespace FormalGrammar.Grove

/-- The node that a value is, planted if need be. -/
def nodeOf? (g : Grove) : Value → Option (Nat × Grove)
  | .node id => some (id, g)
  | .tree t => some (g.plant t)
  | _ => none

/-- The nodes that the values are. All of them must be nodes. -/
def nodesOf (g : Grove) : List Value → Except Fault (List Nat × Grove)
  | [] => .ok ([], g)
  | v :: vs =>
    match g.nodeOf? v with
    | none => .error .foreignChild
    | some (id, g) =>
      match nodesOf g vs with
      | .error f => .error f
      | .ok (ids, g) => .ok (id :: ids, g)

/-- The children that a value lists; a node lists the nodes below and including it. -/
def childrenOf (g : Grove) (v : Value) : Except Fault (List Nat × Grove) :=
  match v with
  | .absent => .ok ([], g)
  | v =>
    match g.nodeOf? v with
    | some (id, g) => .ok (g.preorder id, g)
    | none =>
      match v.members with
      | .error f => .error f
      | .ok vs => g.nodesOf vs

/-- Make a node. -/
def grow (g : Grove) (label terminal children : Value) : Except Fault (Nat × Grove) :=
  match label with
  | .text label =>
    match g.childrenOf children with
    | .error f => .error f
    | .ok (ids, g) => .ok (g.add label terminal.isTrue ids)
  | v => .error (v.refusedBy "Tree::__init__" "label" [.text])

/-- Append a child to a node: a node, or the label of a new one. The result tells the number of
the child and whether it is what was passed. -/
def graft (g : Grove) (parent : Nat) (child terminal : Value) :
    Except Fault (Nat × Bool × Grove) :=
  match child with
  | .text label =>
    let (id, g) := g.add label terminal.isTrue []
    .ok (id, false, g.adopt parent id)
  | v =>
    match g.nodeOf? v with
    | none => .error (v.refusedBy "Tree::add_child" "child" [.tree, .text])
    | some (id, g) => if id = parent then .error .ownChild else .ok (id, true, g.adopt parent id)

/-- Whether a value is a tree equal to the one below a node. -/
def equals (g : Grove) (id : Nat) : Value → Bool
  | .node other => g.tree id = g.tree other
  | .tree t => g.tree id = t
  | _ => false

end FormalGrammar.Grove
