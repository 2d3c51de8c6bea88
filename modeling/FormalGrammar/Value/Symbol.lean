import FormalGrammar.Value.Basic

/-! # Values as symbols and forms -/

namespace FormalGrammar.Value

def isText : Value → Bool
  | text _ => true
  | _ => false

/-- Whether a value can be declared as a symbol. -/
def isSymbol : Value → Bool
  | text t => (Symbol.ofText? t).isSome
  | _ => false

/-- How many members a value says it has. -/
def length? : Value → Option Nat
  | text t => some t.length
  | list vs | tuple vs => some vs.length
  | map ps => some ps.length
  | bytes bs => some bs.length
  | document d => some d.entries.size
  | _ => none

/-- The value itself, or the mark of the empty word if the value is empty. -/
def form (v : Value) : Except Fault Value :=
  match v.length? with
  | none => .error (.unsized v.kind)
  | some 0 => .ok (text [Symbol.epsilon])
  | some _ => .ok v

end FormalGrammar.Value
