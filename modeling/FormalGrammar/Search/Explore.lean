import FormalGrammar.Grammar.Nullable
import FormalGrammar.Search.Memo
import FormalGrammar.Search.Replacement
import FormalGrammar.Tree.Basic
import FormalGrammar.Verdict

/-!
# Bounded search for a derivation

From the start form, every replacement is tried in order, depth first, until a form is
equal to the word. No derivation of more than `bound` replacements is tried. Three rules
leave forms out: a form whose least yield is longer than the word, a form that is too long
to shrink to the length of the word in the replacements left, and a form that has failed
already with as many replacements left.

`explore` returns what a visit of a form has found together with all that the visit
leaves behind: the trees of the replacements tried, the steps taken, whether the bound has
cut the search, and the memo.
-/

namespace FormalGrammar.Search

/-- A form that the search stopped at, with its depth. -/
structure Step where
  depth : Nat
  form : Form
  isMatch : Bool
  deriving DecidableEq

/-- Depth and form, with a mark where the form is the word. -/
def Step.line (s : Step) : Text :=
  Nat.toDigits 10 s.depth ++ '.' :: ' ' :: s.form.text ++
    if s.isMatch then [' ', '(', 'm', 'a', 't', 'c', 'h', ')'] else []

/-- What a search is about. -/
structure Query where
  replacements : Form → List Replacement
  minLength : Form → Nat
  word : Form

/-- What a visit has found and left behind. -/
structure Visit where
  /-- The replacements from the visited form to the word, if they were found. -/
  path : Option (List Replacement)
  /-- A node for each replacement that was tried. -/
  children : List Tree
  steps : List Step
  /-- Whether a form was left out because of the bound. -/
  cut : Bool
  memo : Memo

/-- A visit that ends before it has begun. -/
def Visit.skip (cut : Bool) (memo : Memo) : Visit := ⟨none, [], [], cut, memo⟩

/-- Visit the targets of replacements in turn until one leads to the word. -/
def tryAll (visit : Form → Memo → Visit) : List Replacement → Memo → Visit
  | [], memo => .skip false memo
  | r :: rest, memo =>
    let v := visit r.target memo
    let node := Tree.node r.label false v.children
    match v.path with
    | some path => { v with path := some (r :: path), children := [node] }
    | none =>
      let w := tryAll visit rest v.memo
      { w with
        children := node :: w.children
        steps := v.steps ++ w.steps
        cut := v.cut || w.cut }

/-- Visit a form at a depth. The first argument is the number of replacements left plus one, and
zero where the depth is beyond the bound. -/
def explore (q : Query) : Nat → Nat → Form → Memo → Visit
  | 0, _, _, memo => .skip true memo
  | left + 1, depth, form, memo =>
    if q.word.length < q.minLength form then .skip false memo
    else if q.word.length + left < form.length then .skip true memo
    else if memo.covers form depth then .skip false memo
    else if form = q.word then ⟨some [], [], [⟨depth, form, true⟩], false, memo⟩
    else
      let v := tryAll (explore q left (depth + 1)) (q.replacements form) memo
      { v with
        steps := ⟨depth, form, false⟩ :: v.steps
        memo := if v.path.isSome then v.memo else v.memo.record form depth }

end Search

namespace Grammar

open Search

def query (g : Grammar) (word : Form) : Query :=
  let nullable := g.nullable
  ⟨g.replacements, minLength nullable, word⟩

/-- Search for a derivation of a word with at most `bound` replacements. -/
def search (g : Grammar) (word : Form) (bound : Nat) : Visit :=
  explore (g.query word) (bound + 1) 0 g.startForm ∅

end Grammar

namespace Search.Visit

def verdict (v : Visit) : Verdict :=
  if v.path.isSome then .member else if v.cut then .inconclusive else .nonMember

/-- Whether the rules of a nonterminal were looked up: the start form was neither left out nor
the word. -/
def consultsRules (v : Visit) : Bool :=
  match v.steps with
  | s :: _ => !s.isMatch
  | [] => false

/-- The tree below the start form. -/
def tree (v : Visit) (start : Form) : Tree := .node start false v.children

end FormalGrammar.Search.Visit
