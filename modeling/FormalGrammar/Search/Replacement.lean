import FormalGrammar.Grammar.Text

/-!
# Replacements

A replacement puts the body of a rule in the place of one occurrence of its left-hand side.
`Grammar.replacements` lists all replacements in a form: the occurrences of nonterminals
from left to right, and for each the bodies in the order of the rules.
-/

namespace FormalGrammar

/-- The occurrence of `lhs` between `before` and `after`, replaced by `body`. -/
structure Replacement where
  before : Form
  lhs : Char
  body : Form
  after : Form
  deriving DecidableEq

namespace Replacement

def source (r : Replacement) : Form := r.before ++ r.lhs :: r.after

def target (r : Replacement) : Form := r.before ++ r.body ++ r.after

def label (r : Replacement) : Text := Grammar.productionText r.lhs r.body

end Replacement

namespace Grammar

/-- The replacements in a form that stands after `before`. -/
def replacementsAfter (g : Grammar) (before : Form) : Form → List Replacement
  | [] => []
  | x :: after =>
    (if g.nonterminals.contains x then
      (g.rulesFor x).map fun body => ⟨before, x, body, after⟩
    else []) ++ g.replacementsAfter (before ++ [x]) after

def replacements (g : Grammar) (f : Form) : List Replacement := g.replacementsAfter [] f

end Grammar

end FormalGrammar
