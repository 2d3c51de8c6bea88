import FormalGrammar.Text.Blank
import FormalGrammar.Text.Digit

/-!
# Integers as text

Writing is plain decimal notation with a minus sign. Reading accepts more: blanks around
the numeral, a plus sign, leading zeros, the decimal digits of every script, and single
underscores between digits. Neither goes beyond `digitLimit` digits (`Integer.IsShort`).
-/

namespace FormalGrammar.Numeral

/-- The blanks that may stand around a numeral: all but the information separators. -/
def isMargin (c : Char) : Bool := Text.isBlank c && !(0x1C ≤ c.toNat && c.toNat ≤ 0x1F)

def trimMargin (t : Text) : Text := Text.dropEndWhile isMargin (t.dropWhile isMargin)

/-- The ASCII form of a character of a numeral. -/
def asciiForm? (c : Char) : Option Char :=
  if c.toNat < 0x80 then some c
  else (Text.digitValue? c).map fun d => Char.ofNat (0x30 + d)

/-- Drop the underscores, each of which must stand between two digits. -/
def dropSeparators (afterDigit : Bool) : Text → Option Text
  | [] => some []
  | '_' :: c :: r =>
    if afterDigit && c.isDigit then (dropSeparators true r).map (c :: ·) else none
  | c :: r => if c = '_' then none else (dropSeparators c.isDigit r).map (c :: ·)

/-- A numeral in ASCII, without the blanks around it and the underscores inside. -/
def plainForm? (t : Text) : Option Text := do
  dropSeparators false (← (trimMargin t).mapM asciiForm?)

/-- Divide off a leading sign; `true` stands for minus. -/
def splitSign : Text → Bool × Text
  | '-' :: r => (true, r)
  | '+' :: r => (false, r)
  | r => (false, r)

def digitLimit : Nat := 4300

def natOfDigits? (t : Text) : Option Nat :=
  if t ≠ [] ∧ t.length ≤ digitLimit ∧ t.all Char.isDigit then some (Nat.ofDigitChars 10 t 0)
  else none

namespace Integer

def read? (t : Text) : Option Int := do
  let (negative, digits) := splitSign (← plainForm? t)
  let n ← natOfDigits? digits
  return if negative then -(n : Int) else n

def write : Int → Text
  | .ofNat n => Nat.toDigits 10 n
  | .negSucc n => '-' :: Nat.toDigits 10 (n + 1)

/-- Whether the digits of an integer are few enough for a numeral. -/
def IsShort (n : Int) : Prop := (Nat.toDigits 10 n.natAbs).length ≤ digitLimit

instance (n : Int) : Decidable (IsShort n) := inferInstanceAs (Decidable (_ ≤ _))

example : read? ['\t', '+', '0', '1', '_', '٢', ' '] = some 12 := by decide +kernel
example : read? ['1', '_', '_', '2'] = none := by decide +kernel
example : write (-120) = ['-', '1', '2', '0'] := by decide +kernel

end Integer

end FormalGrammar.Numeral
