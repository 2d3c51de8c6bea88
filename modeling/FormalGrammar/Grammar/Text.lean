import FormalGrammar.Grammar.Basic

/-!
# The text of a grammar

The first line declares the symbols and the start, `G = ({a, b}, {S, A}, S, P)`; every
further line is a production `X -> body`. Writing gives one production per line. Reading
skips blank lines, trims what stands between the marks, and takes several bodies in one
line, separated by `|`.

Reading proceeds line by line, and an edit that the grammar rejects ends it: a failure
names the line it occurred on, unless there is no line to name.
-/

namespace FormalGrammar.Grammar

/-! ## Writing -/

def productionText (x : Char) (body : Form) : Text := x :: ' ' :: '-' :: '>' :: ' ' :: body.text

def symbolsText (cs : List Char) : Text := [',', ' '].intercalate (cs.map fun c => [c])

def headerStart : Text := ['G', ' ', '=', ' ', '(', '{']

def headerMiddle : Text := ['}', ',', ' ', '{']

def headerText (g : Grammar) : Text :=
  headerStart ++ symbolsText g.terminals ++ headerMiddle ++ symbolsText g.nonterminals ++
    ['}', ',', ' '] ++ g.start.toList ++ [',', ' ', 'P', ')']

/-- Every rule with its left-hand side, in the order of the text. -/
def productions (g : Grammar) : List (Char × Form) :=
  g.rules.flatMap fun (x, bodies) => bodies.map fun b => (x, b)

def text (g : Grammar) : Text :=
  ['\n'].intercalate (g.headerText :: g.productions.map fun (x, b) => productionText x b)

/-! ## Failures of reading -/

inductive LineFault where
  | malformedHeader (line : Text)
  | terminal (shown : Text)
  | nonterminal (shown : Text)
  | start (shown : Text)
  | malformedProduction (line : Text)
  | production (lhs rhs : Text)
  deriving DecidableEq

inductive ReadError where
  /-- All lines are blank. -/
  | empty
  | atLine (number : Nat) (fault : LineFault)
  deriving DecidableEq

def LineFault.message : LineFault → String
  | .malformedHeader line => s!"Malformed grammar header '{line.str}'"
  | .terminal shown => s!"Invalid terminal '{shown.str}'"
  | .nonterminal shown => s!"Invalid nonterminal '{shown.str}'"
  | .start shown => s!"Start symbol '{shown.str}' is not a nonterminal"
  | .malformedProduction line => s!"Malformed production '{line.str}'"
  | .production lhs rhs => s!"Invalid production '{lhs.str} -> {rhs.str}'"

/-- A message with the number of the line it is about. -/
def locate (what : String) : Option Nat → String
  | none => what
  | some number => s!"{what} - LINE.{number}"

def ReadError.line? : ReadError → Option Nat
  | .empty => none
  | .atLine number _ => some number

def ReadError.message : ReadError → String
  | .empty => locate "Grammar text is empty" none
  | .atLine number fault => locate fault.message (some number)

/-! ## Reading -/

/-- The items of a listing between commas; a blank listing has none. -/
def items (listing : Text) : List Text :=
  if Text.allBlank listing then [] else (Text.splitOn ',' listing).map Text.trim

/-- The listings and the start of a header. The first listing ends at the first mark between
the two, the second at the end of the line but for the start, which is at most one character. -/
def splitHeader? (line : Text) : Option (Text × Text × Text) := do
  let (terminals, rest) ← Text.cut headerMiddle (← headerStart.isPrefixOf? line)
  match rest.reverse with
  | ')' :: 'P' :: ' ' :: ',' :: ' ' :: ',' :: '}' :: r => some (terminals, r.reverse, [])
  | ')' :: 'P' :: ' ' :: ',' :: c :: ' ' :: ',' :: '}' :: r => some (terminals, r.reverse, [c])
  | _ => none

/-- Add each item in turn, or fail with the first that is rejected. -/
def addAll (add : Grammar → Text → Option Grammar) (fault : Text → LineFault) :
    Grammar → List Text → Except LineFault Grammar
  | g, [] => .ok g
  | g, item :: rest =>
    match add g item with
    | some g => addAll add fault g rest
    | none => .error (fault item)

def readHeader (line : Text) : Except LineFault Grammar :=
  match splitHeader? line with
  | none => .error (.malformedHeader line)
  | some (terminals, nonterminals, start) => do
    let g ← addAll addTerminal? .terminal {} (items terminals)
    let g ← addAll addNonterminal? .nonterminal g (items nonterminals)
    addAll setStart? .start g (if start.isEmpty then [] else [start])

def arrow : Text := ['-', '>']

def readProductions (g : Grammar) (line : Text) : Except LineFault Grammar :=
  match Text.cut arrow line with
  | none => .error (.malformedProduction line)
  | some (before, after) =>
    let lhs := Text.trim before
    if lhs.isEmpty then .error (.malformedProduction line)
    else
      addAll (fun g rhs => g.addProduction? lhs rhs) (.production lhs) g
        ((Text.splitOn '|' after).map Text.trim)

/-- The lines that are not blank, trimmed at the end, with their numbers from one. -/
def contentLines (t : Text) : List (Text × Nat) :=
  (((Text.splitOn '\n' t).zipIdx 1).filter fun (line, _) => !Text.allBlank line).map
    fun (line, number) => (Text.trimEnd line, number)

def atLine (number : Nat) : Except LineFault Grammar → Except ReadError Grammar
  | .ok g => .ok g
  | .error fault => .error (.atLine number fault)

def readRest (g : Grammar) : List (Text × Nat) → Except ReadError Grammar
  | [] => .ok g
  | (line, number) :: rest =>
    match atLine number (readProductions g line) with
    | .ok g => readRest g rest
    | .error e => .error e

def ofText (t : Text) : Except ReadError Grammar :=
  match contentLines t with
  | [] => .error .empty
  | (line, number) :: rest =>
    match atLine number (readHeader line) with
    | .ok g => readRest g rest
    | .error e => .error e

end FormalGrammar.Grammar
