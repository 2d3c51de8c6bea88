import FormalGrammar.Numeral.Integer
import FormalGrammar.Numeral.Shortest
import FormalGrammar.Text.Quoted

/-!
# Floating-point numbers as text

A number is written with the fewest digits that read back to it, positionally when its
magnitude is moderate and with an exponent otherwise; positional text always has a
fraction. Reading takes the same blanks, underscores and digits of other scripts as the
reading of integers, an optional exponent, and the words for infinity and for no number.
-/

namespace FormalGrammar.Numeral.Real

/-- How a decimal is laid out. -/
structure Layout where
  /-- The least decimal exponent of positional text. -/
  least : Int
  /-- The first decimal exponent that is too large for positional text. -/
  limit : Int
  /-- The least number of digits of a written exponent. -/
  exponentWidth : Nat

/-- Positional from a ten-thousandth up to sixteen digits before the point; exponents have at
least two digits. -/
def layout : Layout := ⟨-4, 16, 2⟩

/-- The sign, significand `m` and exponent `q` of a finite number `± m * 2 ^ q`. -/
structure Binary where
  negative : Bool
  m : Nat
  q : Int

inductive Class where
  | nan
  | infinite (negative : Bool)
  | finite (b : Binary)

/-- The parts of the double format: a sign, eleven bits of exponent and fifty-two of fraction. -/
def classify (x : Float) : Class :=
  let bits : Nat := x.toBits.toNat
  let negative := bits.testBit 63
  let exponent := bits / leadingBit % 2048
  let fraction := bits % leadingBit
  if exponent = 2047 then
    if fraction = 0 then .infinite negative else .nan
  else if exponent = 0 then .finite ⟨negative, fraction, -1074⟩
  else .finite ⟨negative, leadingBit + fraction, (exponent : Int) - 1075⟩

/-! ## Writing -/

private def zeros (n : Int) : Text := List.replicate n.toNat '0'

/-- The text of `0.digits * 10 ^ point`, or of zero. -/
def lay (l : Layout) (digits : Text) (point : Int) : Text :=
  let n : Int := digits.length
  let exponent := point - 1
  if exponent < l.least || l.limit ≤ exponent then
    let fraction := match digits.drop 1 with
      | [] => []
      | r => '.' :: r
    let sign := if exponent < 0 then '-' else '+'
    digits.take 1 ++ fraction ++
      'e' :: sign :: Text.padLeft l.exponentWidth '0' (Nat.toDigits 10 exponent.natAbs)
  else if point ≤ 0 then '0' :: '.' :: zeros (-point) ++ digits
  else if n ≤ point then digits ++ zeros (point - n) ++ ['.', '0']
  else digits.take point.toNat ++ '.' :: digits.drop point.toNat

def write (x : Float) : Text :=
  match classify x with
  | .nan => "nan".toList
  | .infinite negative => (if negative then "-inf" else "inf").toList
  | .finite ⟨negative, m, q⟩ =>
    let magnitude :=
      if m = 0 then lay layout ['0'] 1
      else
        let d := Decimal.shortest m q
        let digits := Nat.toDigits 10 d.digits
        lay layout digits (digits.length + d.exponent)
    if negative then '-' :: magnitude else magnitude

/-! ## Reading -/

/-- The nearest number to `digits * 10 ^ exponent`. Beyond these exponents the nearest is zero
or infinity whatever the digits are, so the power need not be computed. -/
def ofDecimal (digits : Nat) (exponent : Int) : Float :=
  let top := (Nat.toDigits 10 digits).length + exponent
  if digits = 0 ∨ top < -330 then 0
  else if 320 < top then 1 / 0
  else Float.ofScientific digits (exponent < 0) exponent.natAbs

/-- The exponent after the significand, which is zero when the text ends there. -/
def exponent? : Text → Option Int
  | [] => some 0
  | e :: r =>
    if e = 'e' ∨ e = 'E' then
      let (negative, digits) := splitSign r
      if digits ≠ [] ∧ digits.all Char.isDigit then
        let n := Nat.ofDigitChars 10 digits 0
        some (if negative then -(n : Int) else n)
      else none
    else none

def unsigned? (t : Text) : Option Float :=
  let word := t.map Char.toLower
  if word = "inf".toList ∨ word = "infinity".toList then some (1 / 0)
  else if word = "nan".toList then some (0 / 0)
  else
    let whole := t.takeWhile Char.isDigit
    let (fraction, rest) := match t.dropWhile Char.isDigit with
      | '.' :: r => (r.takeWhile Char.isDigit, r.dropWhile Char.isDigit)
      | r => ([], r)
    if whole ++ fraction = [] then none
    else (exponent? rest).map fun e =>
      ofDecimal (Nat.ofDigitChars 10 (whole ++ fraction) 0) (e - fraction.length)

def read? (t : Text) : Option Float := do
  let (negative, magnitude) := splitSign (← plainForm? t)
  let x ← unsigned? magnitude
  return if negative then -x else x

/-! ## The integer part -/

/-- The number without its fraction; `none` for what is not finite. -/
def truncate? (x : Float) : Option Int :=
  match classify x with
  | .finite ⟨negative, m, q⟩ =>
    let n : Nat := if 0 ≤ q then m <<< q.toNat else m >>> (-q).toNat
    some (if negative then -(n : Int) else n)
  | _ => none

def isInfinite (x : Float) : Bool :=
  match classify x with
  | .infinite _ => true
  | _ => false

end FormalGrammar.Numeral.Real
