import FormalGrammar.Analysis

/-!
# Exploring a grammar

The general tree of a grammar shows every rule that can be reached from the start symbol
within a number of levels. Nodes for productions alternate with nodes for symbols, and a
nonterminal is not expanded again below a node where it has been expanded.
-/

namespace FormalGrammar

namespace Grammar

/-- The children of a node for the nonterminal `x`, expanded for `levels` levels. -/
def expand (g : Grammar) : Nat → List Char → Char → List Tree
  | 0, _, _ => []
  | levels + 1, visited, x =>
    if visited.contains x then []
    else
      (g.rulesFor x).map fun body =>
        .node (productionText x body) false (body.map fun c =>
          if g.terminals.contains c then .leaf [c] true
          else .node [c] false (g.expand levels (x :: visited) c))

/-- The tree of the rules within `levels` levels of the start symbol. -/
def generalTree (g : Grammar) (levels : Nat) : Tree :=
  .node g.startForm false (g.start.toList.flatMap (g.expand levels []))

end Grammar

namespace Exploration

/-- The rule book and the log of an exploration. -/
def readArguments (grammar log : Value) : Except Fault (RuleBook × Journal) :=
  let operation := "GeneralTreeGenerator::__init__"
  match Analysis.readBook grammar with
  | none => .error (grammar.refusedBy operation "grammar" [.grammar])
  | some b =>
    match Analysis.readJournal log with
    | none => .error (log.refusedBy operation "logger" [.log, .absent])
    | some j => .ok (b, j)

/-- The number of levels, which may be any integer. -/
def readLevels (v : Value) : Except Fault Int :=
  match Analysis.integer? v with
  | some n => .ok n
  | none => .error (v.refusedBy "GeneralTreeGenerator::generate" "max_depth" [.int])

/-- The tree that stands for a grammar that is not valid. -/
def invalidTree : Tree := .leaf "Invalid grammar".toList false

def generated (levels : Int) (t : Tree) : Except Fault Text := do
  return s!"General tree of depth {(← numeral levels).str} generated with {t.size} nodes".toList

theorem exists_generated {levels : Int} (h : Numeral.Integer.IsShort levels) (t : Tree) :
    ∃ message, generated levels t = .ok message := by
  rw [generated, numeral, if_pos h]
  exact ⟨_, rfl⟩

/-- Generate the general tree; a number of levels below one leaves the start symbol alone. With a
log, the number must have a numeral. -/
def run (b : RuleBook) (levels : Int) (j : Journal) : Except Fault Tree × Journal :=
  if !b.grammar.isValid then
    match j.note .warn "General tree requested for an invalid grammar".toList with
    | .error f => (.error f, j)
    | .ok j => (.ok invalidTree, j)
  else
    match (if 0 < levels then b.outage else none) with
    | some f => (.error f, j)
    | none =>
      let t := b.grammar.generalTree levels.toNat
      match j.noteMade .debug (generated levels t) with
      | .error f => (.error f, j)
      | .ok j => (.ok t, j)

end Exploration

end FormalGrammar
