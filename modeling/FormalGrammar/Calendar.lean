import FormalGrammar.Numeral.Integer
import FormalGrammar.Text.Quoted

/-!
# Moments and time zones

A moment is a date of the Gregorian calendar with the time of day to the microsecond. It is
shifted to another zone by counting microseconds; a date outside the years 1 to 9999 does
not exist. Days are counted from 1 March of the year 0 in periods of 400 years, which makes
every leap day the last day of its year.
-/

namespace FormalGrammar

structure Moment where
  year : Int
  month : Nat
  day : Nat
  hour : Nat
  minute : Nat
  second : Nat
  micro : Nat
  deriving DecidableEq, Repr

namespace Moment

/-- The number of days from 1 March of the year 0 to a date. -/
def dayNumber (year : Int) (month day : Nat) : Int :=
  let y := if month ≤ 2 then year - 1 else year
  let shifted : Int := (month + 9) % 12
  y * 365 + y / 4 - y / 100 + y / 400 + (153 * shifted + 2) / 5 + day - 1

/-- The date on a day. -/
def dateOfDay (n : Int) : Int × Nat × Nat :=
  let period := n / 146097
  let rest := n % 146097
  let y := (rest - rest / 1460 + rest / 36524 - rest / 146096) / 365
  let ofYear := rest - (365 * y + y / 4 - y / 100)
  let shifted := (5 * ofYear + 2) / 153
  let day := ofYear - (153 * shifted + 2) / 5 + 1
  let month := if shifted < 10 then shifted + 3 else shifted - 9
  (period * 400 + y + (if month ≤ 2 then 1 else 0), month.toNat, day.toNat)

def microsPerDay : Int := 86400 * 1000000

def toMicros (t : Moment) : Int :=
  dayNumber t.year t.month t.day * microsPerDay +
    ((t.hour * 60 + t.minute) * 60 + t.second : Nat) * 1000000 + t.micro

/-- The moment at a count of microseconds, if its year can be written. -/
def ofMicros? (n : Int) : Option Moment :=
  let (year, month, day) := dateOfDay (n / microsPerDay)
  let rest := (n % microsPerDay).toNat
  let seconds := rest / 1000000
  if 1 ≤ year ∧ year ≤ 9999 then
    some ⟨year, month, day, seconds / 3600, seconds / 60 % 60, seconds % 60, rest % 1000000⟩
  else none

def shift? (t : Moment) (micros : Int) : Option Moment := ofMicros? (t.toMicros + micros)

/-- A number with at least `width` digits. -/
def padded (width n : Nat) : Text := Text.padLeft width '0' (Nat.toDigits 10 n)

/-- Month, day and year, then the time of day. -/
def text (t : Moment) : Text :=
  padded 2 t.month ++ '/' :: padded 2 t.day ++ '/' :: padded 1 t.year.toNat ++
    ' ' :: padded 2 t.hour ++ ':' :: padded 2 t.minute ++ ':' :: padded 2 t.second ++
    '.' :: padded 6 t.micro

example : shift? ⟨2024, 2, 28, 23, 59, 59, 999999⟩ 1 = some ⟨2024, 2, 29, 0, 0, 0, 0⟩ := by
  decide +kernel
example : shift? ⟨2100, 3, 1, 0, 0, 0, 0⟩ (-1) = some ⟨2100, 2, 28, 23, 59, 59, 999999⟩ := by
  decide +kernel
example : shift? ⟨1, 1, 1, 0, 0, 0, 0⟩ (-1) = none := by decide +kernel

end Moment

/-- A fixed offset from universal time in microseconds, and its name if it has one. -/
structure Zone where
  offset : Int
  name : Option Text
  deriving DecidableEq

namespace Zone

def utc : Zone := ⟨0, none⟩

/-- Whether an offset in microseconds is less than a day either way. -/
def isOffset (offset : Int) : Bool := offset.natAbs < 86400 * 1000000

/-- A span of time in days, seconds and microseconds, the latter two never negative. -/
def span (micros : Int) : String :=
  let seconds := micros / 1000000
  let parts := [("days", seconds / 86400), ("seconds", seconds % 86400),
    ("microseconds", micros % 1000000)]
  let shown := parts.filterMap fun (unit, n) =>
    if n = 0 then none else some s!"{unit}={(Numeral.Integer.write n).str}"
  let listed := if shown.isEmpty then "0" else ", ".intercalate shown
  s!"datetime.timedelta({listed})"

/-- The name, or else the offset in hours and minutes, with seconds and microseconds only when
they are needed. -/
def text (z : Zone) : Text :=
  match z.name with
  | some name => name
  | none =>
    if z.offset = 0 then ['U', 'T', 'C']
    else
      let micros := z.offset.natAbs
      let seconds := micros / 1000000
      let fine := if micros % 1000000 = 0 then [] else '.' :: Moment.padded 6 (micros % 1000000)
      let small :=
        if seconds % 60 = 0 ∧ fine = [] then [] else ':' :: Moment.padded 2 (seconds % 60) ++ fine
      ['U', 'T', 'C', if z.offset < 0 then '-' else '+'] ++ Moment.padded 2 (seconds / 3600) ++
        ':' :: Moment.padded 2 (seconds / 60 % 60) ++ small

end Zone

end FormalGrammar
