import FormalGrammar.Grammar.Edit

/-!
# Building a grammar at once

The terminals, the nonterminals, the start and the productions are given as values and
declared in this order. The first edit that is rejected is the fault of the whole. Its refusal is
put into words beforehand, so an edit that cannot be put into words fails for that.
-/

namespace FormalGrammar.Grammar

/-- Make an edit, or fail. -/
def demand (g : Grammar) (e : Edit) : Except Fault Grammar :=
  match e.refusal with
  | .error f => .error f
  | .ok f =>
    match e.outcome? g with
    | some g => .ok g
    | none => .error f

/-- Make the edits for the members of a value. -/
def demandEach (edit : Value → Edit) (g : Grammar) (vs : Value) : Except Fault Grammar :=
  match vs.members with
  | .error f => .error f
  | .ok vs => vs.foldlM (fun g v => g.demand (edit v)) g

def demandStart (g : Grammar) : Value → Except Fault Grammar
  | .absent => .ok g
  | v => g.demand (.start v)

/-- The alternatives for one left-hand side; a text is a single one. -/
def demandAlternatives (g : Grammar) (lhs alternatives : Value) : Except Fault Grammar :=
  let alternatives := match alternatives with
    | .text t => .list [.text t]
    | v => v
  demandEach (.production lhs) g alternatives

def demandProductions (g : Grammar) : Value → Except Fault Grammar
  | .absent => .ok g
  | .map pairs =>
    pairs.foldlM (fun g (lhs, alternatives) => g.demandAlternatives lhs alternatives) g
  | v => .error (v.missing "items")

def build (terminals nonterminals start productions : Value) : Except Fault Grammar := do
  let g ← demandEach .terminal {} terminals
  let g ← demandEach .nonterminal g nonterminals
  let g ← g.demandStart start
  g.demandProductions productions

end FormalGrammar.Grammar
