import FormalGrammar.Text.Blank

/-!
# Symbols and sentential forms

A symbol of a grammar is a single character. Blanks, the mark `ε` of the empty word and
the four characters that structure the text of a grammar cannot be declared. A sentential
form is a list of symbols; the empty form is shown as `ε`.
-/

namespace FormalGrammar

namespace Symbol

/-- The mark that stands for the empty word in text. -/
def epsilon : Char := 'ε'

def reserved : List Char := ['{', '}', ',', '|']

/-- Whether `c` may be declared as a terminal or a nonterminal. -/
def isUsable (c : Char) : Bool := !Text.isBlank c && c != epsilon && !reserved.contains c

def ofText? : Text → Option Char
  | [c] => if isUsable c then some c else none
  | _ => none

theorem ofText?_eq_some_iff {t : Text} {c : Char} :
    ofText? t = some c ↔ t = [c] ∧ isUsable c = true := by
  unfold ofText?
  split
  · next d =>
    by_cases hd : isUsable d = true
    · simp only [hd, if_true, Option.some.injEq, List.cons.injEq, and_true]
      exact ⟨fun h => ⟨h, h ▸ hd⟩, fun h => h.1⟩
    · simp only [hd, List.cons.injEq, and_true, reduceCtorEq, false_iff, if_false]
      rintro ⟨rfl, h⟩
      exact hd h
  · next h => simp only [reduceCtorEq, false_iff]; exact fun ht => h c ht.1

end Symbol

abbrev Form := List Char

/-- The text of a form. -/
def Form.text (f : Form) : Text := if f.isEmpty then [Symbol.epsilon] else f

end FormalGrammar
