import FormalGrammar.Grammar.Basic

/-!
# Nullable nonterminals

The nonterminals that derive the empty word, as the least set that holds every left-hand
side with a body of nullable symbols only. One pass over the rules adds each such
left-hand side that the set lacks; as many passes as there are groups of rules reach the
least set, for each pass before that adds a nonterminal.
-/

namespace FormalGrammar.Grammar

/-- One pass over the groups of rules, each judged by the set as it stands by then. -/
def nullablePass (rules : List (Char × List Form)) (known : List Char) : List Char :=
  rules.foldl
    (fun known (x, bodies) =>
      if !known.contains x && bodies.any (fun b => b.all known.contains) then known ++ [x]
      else known)
    known

/-- The set after `n` passes. -/
def nullableAfter (rules : List (Char × List Form)) : Nat → List Char
  | 0 => []
  | n + 1 => nullablePass rules (nullableAfter rules n)

def nullable (g : Grammar) : List Char := nullableAfter g.rules g.rules.length

/-- The least length of a form derived from `f`: every symbol counts but the nullable ones. -/
def minLength (nullable : List Char) (f : Form) : Nat := f.countP fun c => !nullable.contains c

end FormalGrammar.Grammar
