import FormalGrammar.Text.Basic

/-!
# The shortest decimal of a binary fraction

A finite binary number of the double format is `m * 2 ^ q` with naturals `m < 2 ^ 53` and
an integer `q`; the reals that round to it form an interval around it, whose ends belong to
it when `m` is even. `shortest` finds the decimal with the fewest digits in that interval,
and of two with equally few digits the nearer one. All comparisons are of natural numbers,
so nothing is rounded on the way.
-/

namespace FormalGrammar.Numeral

/-- A decimal `digits * 10 ^ exponent`. -/
structure Decimal where
  digits : Nat
  exponent : Int
  deriving DecidableEq, Repr

/-- The least significand of a number that is not among the smallest ones: 2 to the power 52. -/
def leadingBit : Nat := 1 <<< 52

/-- The numerator of `n * b ^ e` over the denominator of the second component. -/
private def scale (n b : Nat) (e : Int) : Nat × Nat :=
  if 0 ≤ e then (n * b.pow e.toNat, 1) else (n, b.pow (-e).toNat)

namespace Decimal

/-- The same value with no zero at the end of its digits. -/
def normalize : Nat → Decimal → Decimal
  | 0, d => d
  | fuel + 1, d =>
    if d.digits ≠ 0 ∧ d.digits % 10 = 0 then normalize fuel ⟨d.digits / 10, d.exponent + 1⟩ else d

/-- A binary number and the interval of reals that round to it, as numerators over `den`. -/
structure Interval where
  low : Nat
  value : Nat
  high : Nat
  den : Nat
  closed : Bool

/-- The interval of `m * 2 ^ q`. Below a power of two the lower neighbour is half as far away,
unless `m * 2 ^ q` is among the smallest numbers of the format. -/
def Interval.around (m : Nat) (q : Int) : Interval :=
  let narrow := m = leadingBit ∧ -1074 < q
  let at' (n : Nat) := (scale n 2 (q - 2)).1
  ⟨at' (if narrow then 4 * m - 1 else 4 * m - 2), at' (4 * m), at' (4 * m + 2),
    (scale 1 2 (q - 2)).2, m % 2 = 0⟩

/-- Whether `n / den` lies in the interval. -/
def Interval.holds (i : Interval) (n den : Nat) : Bool :=
  let l := i.low * den
  let h := i.high * den
  let x := n * i.den
  if i.closed then l ≤ x && x ≤ h else l < x && x < h

/-- The power of ten just above the value: the least `k` with `value < 10 ^ k`, searched upward
from a `k` below it within `fuel` steps. -/
def Interval.magnitude (i : Interval) : Nat → Int → Int
  | 0, k => k
  | fuel + 1, k =>
    let (n, d) := scale 1 10 k
    if i.value * d < n * i.den then k else magnitude i fuel (k + 1)

/-- The better of the two neighbours of the value on the grid `10 ^ e`, if one is in the
interval. Of two the nearer is better, and of two equally near the even one. -/
def Interval.onGrid? (i : Interval) (e : Int) : Option Decimal :=
  let (n, d) := scale 1 10 e
  let x := i.value * d
  let unit := i.den * n
  let a := x / unit
  let below := i.holds (a * n) d
  let above := i.holds ((a + 1) * n) d
  let rest := 2 * (x % unit)
  if below && above then
    if rest < unit || (rest == unit && a % 2 == 0) then some ⟨a, e⟩ else some ⟨a + 1, e⟩
  else if below then some ⟨a, e⟩
  else if above then some ⟨a + 1, e⟩
  else none

/-- The shortest decimal that rounds to `m * 2 ^ q`, for a positive `m`. Seventeen digits are
always enough. The search for the magnitude starts from the binary one, by log 2 = 0.30103. -/
def shortest (m : Nat) (q : Int) : Decimal :=
  let i := Interval.around m q
  let k := i.magnitude 5 ((q + m.log2) * 30103 / 100000 - 1)
  let found := (List.range 17).findSome? fun (n : Nat) => i.onGrid? (k - n - 1)
  normalize 20 (found.getD ⟨0, 0⟩)

example : shortest 1 (-1074) = ⟨5, -324⟩ := by decide +kernel
example : shortest leadingBit (-52) = ⟨1, 0⟩ := by decide +kernel

end Decimal

end FormalGrammar.Numeral
