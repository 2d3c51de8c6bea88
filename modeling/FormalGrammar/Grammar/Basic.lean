import FormalGrammar.Symbol

/-!
# Grammars

A context-free grammar keeps its symbols in the order of declaration and its rules grouped
by left-hand side, the groups in the order in which each left-hand side first appeared. The
body of a rule is a form; the empty body stands for the empty word.

Editing either appends one entry (or sets the start symbol) or is rejected, so that a
rejected edit cannot leave a trace. `WellFormed` says what every grammar made by editing
satisfies.
-/

namespace FormalGrammar

structure Grammar where
  terminals : List Char := []
  nonterminals : List Char := []
  start : Option Char := none
  rules : List (Char × List Form) := []
  deriving DecidableEq

namespace Grammar

/-- Whether `c` is declared, as a terminal or as a nonterminal. -/
def declares (g : Grammar) (c : Char) : Bool := g.terminals.contains c || g.nonterminals.contains c

/-- The bodies of the rules for `x`, in the order in which they were added. -/
def rulesFor (g : Grammar) (x : Char) : List Form := (g.rules.lookup x).getD []

def ruleCount (g : Grammar) : Nat := (g.rules.flatMap Prod.snd).length

/-- The form every derivation begins with; empty when there is no start symbol. -/
def startForm (g : Grammar) : Form := g.start.toList

theorem startForm_of_start {g : Grammar} {s : Char} (h : g.start = some s) : g.startForm = [s] := by
  rw [startForm, h]
  rfl

/-- Whether the grammar has terminals, nonterminals, a start symbol and rules. -/
def isValid (g : Grammar) : Bool :=
  !g.terminals.isEmpty && !g.nonterminals.isEmpty && g.start.isSome && !g.rules.isEmpty

/-! ## Editing -/

def addTerminal? (g : Grammar) (s : Text) : Option Grammar := do
  let c ← Symbol.ofText? s
  if g.declares c then none else some { g with terminals := g.terminals ++ [c] }

def addNonterminal? (g : Grammar) (s : Text) : Option Grammar := do
  let c ← Symbol.ofText? s
  if g.declares c then none else some { g with nonterminals := g.nonterminals ++ [c] }

/-- The nonterminal that a text names. -/
def nonterminal? (g : Grammar) : Text → Option Char
  | [c] => if g.nonterminals.contains c then some c else none
  | _ => none

def setStart? (g : Grammar) (s : Text) : Option Grammar :=
  (g.nonterminal? s).map fun c => { g with start := some c }

/-- The body that a text spells: the mark of the empty word, or declared symbols. -/
def body? (g : Grammar) (s : Text) : Option Form :=
  if s = [Symbol.epsilon] then some []
  else if !s.isEmpty && s.all g.declares then some s
  else none

/-- Append a body to the group of `x`, opening the group at the end if there is none. -/
def appendRule (x : Char) (body : Form) : List (Char × List Form) → List (Char × List Form)
  | [] => [(x, [body])]
  | (y, bodies) :: rest =>
    if y = x then (y, bodies ++ [body]) :: rest else (y, bodies) :: appendRule x body rest

def addProduction? (g : Grammar) (lhs rhs : Text) : Option Grammar := do
  let x ← g.nonterminal? lhs
  let body ← g.body? rhs
  return { g with rules := appendRule x body g.rules }

/-! ## Sameness -/

/-- Whether two grammars have the same symbols, start and rules. The order of declaration and
of the groups does not count, the order of the bodies within a group does. -/
def sameAs (g h : Grammar) : Bool :=
  sameMembers g.terminals h.terminals && sameMembers g.nonterminals h.nonterminals &&
    g.start == h.start && holdsAll g h && holdsAll h g
where
  sameMembers (xs ys : List Char) : Bool := xs.all ys.contains && ys.all xs.contains
  holdsAll (g h : Grammar) : Bool := g.rules.all fun (x, bodies) => h.rules.lookup x == some bodies

/-! ## What editing keeps -/

/-- What holds of every grammar that is made by editing. -/
structure WellFormed (g : Grammar) : Prop where
  terminals_nodup : g.terminals.Nodup
  nonterminals_nodup : g.nonterminals.Nodup
  disjoint : ∀ c ∈ g.terminals, c ∉ g.nonterminals
  usable : ∀ c, g.declares c = true → Symbol.isUsable c = true
  start_mem : ∀ c, g.start = some c → c ∈ g.nonterminals
  keys_nodup : (g.rules.map Prod.fst).Nodup
  keys_mem : ∀ x ∈ g.rules.map Prod.fst, x ∈ g.nonterminals
  bodies_ne_nil : ∀ r ∈ g.rules, r.2 ≠ []
  declared : ∀ r ∈ g.rules, ∀ b ∈ r.2, ∀ c ∈ b, g.declares c = true

end Grammar

end FormalGrammar
