import FormalGrammar.Text.Printable

/-!
# Quoted text

A text or a byte string as it is shown inside other values. The quotes are single unless
the text holds a single quote and no double one; the quote in use and the backslash are
escaped, line feed, carriage return and tab have short escapes, and what cannot be
printed is written by its code in two, four or eight hexadecimal digits.
-/

namespace FormalGrammar.Text

def padLeft (width : Nat) (fill : Char) (t : Text) : Text :=
  List.replicate (width - t.length) fill ++ t

def hex (width n : Nat) : Text := padLeft width '0' (Nat.toDigits 16 n)

/-- The quote that `t` is written in. -/
def quoteFor (t : Text) : Char := if '\'' ∈ t ∧ '"' ∉ t then '"' else '\''

def escapeByCode (n : Nat) : Text :=
  if n < 0x100 then '\\' :: 'x' :: hex 2 n
  else if n < 0x10000 then '\\' :: 'u' :: hex 4 n
  else '\\' :: 'U' :: hex 8 n

/-- The written form of `c` between two quotes `q`, where `plain` says what stands for itself. -/
def escape (plain : Char → Bool) (q c : Char) : Text :=
  if c = q ∨ c = '\\' then ['\\', c]
  else if c = '\n' then ['\\', 'n']
  else if c = '\r' then ['\\', 'r']
  else if c = '\t' then ['\\', 't']
  else if plain c then [c]
  else escapeByCode c.toNat

def quoted (t : Text) : Text :=
  let q := quoteFor t
  q :: t.flatMap (escape isPrintable q) ++ [q]

/-- Bytes are quoted like the characters of the same codes, of which only ASCII is plain. -/
def quotedBytes (bytes : List UInt8) : Text :=
  let t := bytes.map fun b => Char.ofNat b.toNat
  let q := quoteFor t
  'b' :: q :: t.flatMap (escape (fun c => 0x20 ≤ c.toNat && c.toNat < 0x7F) q) ++ [q]

example : quoted ['a', '\'', '\n'] = ['"', 'a', '\'', '\\', 'n', '"'] := by decide
example : quoted ['\'', '"'] = ['\'', '\\', '\'', '"', '\''] := by decide
example : quotedBytes [0x61, 0xff] = ['b', '\'', 'a', '\\', 'x', 'f', 'f', '\''] := by decide

end FormalGrammar.Text
