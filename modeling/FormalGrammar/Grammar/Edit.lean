import FormalGrammar.Value.Display

/-!
# Editing and asking with values of any kind

An edit names what it changes by values, which may be of any kind; what is no text is
rejected like a text that names nothing. A question about a symbol takes any value that can
be a key, and nothing but a text of one declared symbol is ever found.
-/

namespace FormalGrammar

inductive Edit where
  | terminal (symbol : Value)
  | nonterminal (symbol : Value)
  | start (symbol : Value)
  | production (lhs rhs : Value)

namespace Edit

/-- The edited grammar, or nothing if the edit is rejected. -/
def outcome? (g : Grammar) : Edit → Option Grammar
  | terminal (.text s) => g.addTerminal? s
  | nonterminal (.text s) => g.addNonterminal? s
  | start (.text s) => g.setStart? s
  | production (.text lhs) (.text rhs) => g.addProduction? lhs rhs
  | _ => none

/-- What an edit is about. -/
def text : Edit → Except Fault Text
  | terminal v => do return s!"terminal '{(← v.display).str}'".toList
  | nonterminal v => do return s!"nonterminal '{(← v.display).str}'".toList
  | start v => do return s!"start symbol '{(← v.display).str}'".toList
  | production lhs rhs => do
    return s!"production '{(← lhs.display).str} -> {(← rhs.display).str}'".toList

/-- The fault of an edit that must not be rejected but is. -/
def refusal : Edit → Except Fault Fault
  | terminal v => do return .terminalRejected (← v.display)
  | nonterminal v => do return .nonterminalRejected (← v.display)
  | start v => do return .startRejected (← v.display)
  | production lhs rhs => do return .productionRejected (← lhs.display) (← rhs.display)

end Edit

/-- Whether an edit is accepted, and the grammar after it. -/
def Grammar.edit (g : Grammar) (e : Edit) : Bool × Grammar :=
  match e.outcome? g with
  | some g => (true, g)
  | none => (false, g)

def RuleBook.edit (b : RuleBook) (e : Edit) : Bool × RuleBook :=
  let (accepted, g) := b.grammar.edit e
  (accepted, { b with grammar := g })

namespace Grammar

/-- Ask about a single symbol. -/
def ask (question : Char → Bool) (v : Value) : Except Fault Bool :=
  match v.requireHashable with
  | .error f => .error f
  | .ok () =>
    match v with
    | .text [c] => .ok (question c)
    | _ => .ok false

def isTerminal (g : Grammar) (v : Value) : Except Fault Bool := ask g.terminals.contains v

def isNonterminal (g : Grammar) (v : Value) : Except Fault Bool := ask g.nonterminals.contains v

def isDeclared (g : Grammar) (v : Value) : Except Fault Bool := ask g.declares v

/-- Whether a value is a grammar that is the same up to the order of declaration. -/
def equals (g : Grammar) : Value → Bool
  | .grammar b => g.sameAs b.grammar
  | _ => false

/-- Read the text of a grammar. -/
def ofValue : Value → Except Fault Grammar
  | .text t =>
    match ofText t with
    | .ok g => .ok g
    | .error e => .error (.grammarText e)
  | v => .error (v.refusedBy "Grammar::decode" "text" [.text])

end Grammar

/-- The bodies of the rules for the symbol that a value names. -/
def RuleBook.lookup (b : RuleBook) (v : Value) : Except Fault (List Form) :=
  match b.outage with
  | some f => .error f
  | none =>
    match v.requireHashable with
    | .error f => .error f
    | .ok () =>
      match v with
      | .text [x] => .ok (b.grammar.rulesFor x)
      | _ => .ok []

end FormalGrammar
