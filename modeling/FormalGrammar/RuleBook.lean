import FormalGrammar.Fault

/-!
# Rule books

A grammar as the search and the exploration are given it. Its rules can be looked up, or
every look-up fails with the same fault; all else that a grammar tells is told in any case.
-/

namespace FormalGrammar

structure RuleBook where
  grammar : Grammar
  /-- The fault of every look-up, if look-ups fail. -/
  outage : Option Fault := none

namespace RuleBook

def rulesFor (b : RuleBook) (x : Char) : Except Fault (List Form) :=
  match b.outage with
  | some f => .error f
  | none => .ok (b.grammar.rulesFor x)

end RuleBook

end FormalGrammar
