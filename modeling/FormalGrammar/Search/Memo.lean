import FormalGrammar.Symbol
import Std.Data.TreeMap

/-!
# Forms that have failed

The search remembers the depth at which the search from a form came to nothing. The same
form need not be searched again at that depth or a greater one, where fewer replacements
are left.
-/

namespace FormalGrammar

abbrev Memo := Std.TreeMap Form Nat

namespace Memo

/-- Whether the search from `f` at this depth is known to come to nothing. -/
def covers (m : Memo) (f : Form) (depth : Nat) : Bool :=
  match m[f]? with
  | some d => d ≤ depth
  | none => false

def record (m : Memo) (f : Form) (depth : Nat) : Memo := m.insert f depth

theorem getElem?_record (m : Memo) (f f' : Form) (d : Nat) :
    (m.record f d)[f']? = if f = f' then some d else m[f']? := by
  rw [record, Std.TreeMap.getElem?_insert]
  simp

end Memo

end FormalGrammar
