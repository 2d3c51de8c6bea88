import FormalGrammar.Text.Basic

/-!
# Blank characters

The white space of Unicode, together with the four information separators
`U+001C`–`U+001F`. Trimming takes the blanks off the ends of a text and leaves the
inside alone.
-/

namespace FormalGrammar.Text

/-- The 29 blank characters. -/
def isBlank (c : Char) : Bool :=
  let n := c.toNat
  (0x09 ≤ n && n ≤ 0x0D) || (0x1C ≤ n && n ≤ 0x20) || n == 0x85 || n == 0xA0 || n == 0x1680 ||
    (0x2000 ≤ n && n ≤ 0x200A) || n == 0x2028 || n == 0x2029 || n == 0x202F || n == 0x205F ||
    n == 0x3000

/-- Take the characters that satisfy `p` off the end. -/
def dropEndWhile (p : Char → Bool) (t : Text) : Text := (t.reverse.dropWhile p).reverse

def trimEnd (t : Text) : Text := dropEndWhile isBlank t

def trim (t : Text) : Text := trimEnd (t.dropWhile isBlank)

def allBlank (t : Text) : Bool := t.all isBlank

theorem isBlank_newline : isBlank '\n' = true := by decide

end FormalGrammar.Text
