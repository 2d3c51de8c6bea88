import FormalGrammar.Tree.Render
import FormalGrammar.Value.Basic

/-!
# The text of values

A value is displayed on its own as itself, and inside another value in a quoted form that
shows its kind. Objects that have no text of their own show where they are kept, which the
mark `*` stands for. An integer that is too long for a numeral has no text, and neither has what it
is inside of.
-/

namespace FormalGrammar

def Zone.quoted (z : Zone) : Text :=
  let span := Zone.span z.offset
  match z.name with
  | none =>
    if z.offset = 0 then "datetime.timezone.utc".toList
    else s!"datetime.timezone({span})".toList
  | some name =>
    let name := (Text.quoted name).str
    s!"datetime.timezone({span}, {name})".toList

/-- An object of a kind, told from others of the kind by what it is called. -/
def instanceText (kind : Kind) (called : Text) : Text :=
  s!"<{kind.name}[{called.str}] instance @ 0X*>".toList

namespace Value

/-- Texts separated by a comma and a blank. -/
def commaSeparated (ts : List Text) : Text := [',', ' '].intercalate ts

mutual

/-- The form of a value inside another one. -/
def quoted : Value → Except Fault Text
  | absent => .ok "None".toList
  | bool b => .ok (if b then "True" else "False").toList
  | int n => numeral n
  | real x => .ok (Numeral.Real.write x)
  | text t => .ok (Text.quoted t)
  | list vs => do return '[' :: commaSeparated (← quotedAll vs) ++ [']']
  | tuple vs => do
    match ← quotedAll vs with
    | [only] => return '(' :: only ++ [',', ')']
    | shown => return '(' :: commaSeparated shown ++ [')']
  | map ps => do return '\x7b' :: commaSeparated (← quotedPairs ps) ++ ['\x7d']
  | bytes bs => .ok (Text.quotedBytes bs)
  | opaqueObject => .ok "<object object at 0x*>".toList
  | document d => .ok (instanceText .document d.title)
  | tree t => .ok (instanceText .tree t.label)
  | node _ => .ok (instanceText .tree ['*'])
  | verdict v => .ok s!"<Verdict.{v.name}: '{v.text}'>".toList
  | level l => .ok s!"<LogLevel.{l.name}: {l.rank}>".toList
  | zone z => .ok z.quoted
  | fault f => .ok s!"{f.className}({(Text.quoted f.message.toList).str})".toList
  | grammar b => .ok (instanceText .grammar b.grammar.startForm)
  | log l => .ok (instanceText .log l.level.name.toList)

def quotedAll : List Value → Except Fault (List Text)
  | [] => .ok []
  | v :: vs => do return (← quoted v) :: (← quotedAll vs)

def quotedPairs : List (Value × Value) → Except Fault (List Text)
  | [] => .ok []
  | (k, v) :: rest => do
    return ((← quoted k) ++ ':' :: ' ' :: (← quoted v)) :: (← quotedPairs rest)

end

/-- The text of a value on its own. -/
def display : Value → Except Fault Text
  | text t => .ok t
  | fault f => .ok f.message.toList
  | tree t => .ok t.render
  | verdict v => .ok s!"Verdict.{v.name}".toList
  | level l => .ok (Numeral.Integer.write l.rank)
  | zone z => .ok z.text
  | grammar b => .ok b.grammar.text
  | v => v.quoted

@[simp] theorem display_text (t : Text) : (text t).display = .ok t := by rw [display]

@[simp] theorem display_int (n : Int) : (int n).display = numeral n := by
  rw [display, quoted]
  all_goals simp

end Value

end FormalGrammar
