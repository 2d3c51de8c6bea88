import FormalGrammar.Tree.Basic

/-!
# Drawn trees

A tree is drawn with one label to a line. The lines of a child hang under its parent: its
first line is joined by a connector, its other lines are indented by four columns, which
carry a bar unless the child is the last one.
-/

namespace FormalGrammar.Tree

def branch : Text := ['├', '─', '─', ' ']
def bar : Text := ['│', ' ', ' ', ' ']
def lastBranch : Text := ['└', '─', '─', ' ']
def gap : Text := [' ', ' ', ' ', ' ']

/-- Put `first` before the first line and `rest` before all others. -/
def hang (first rest : Text) : List Text → List Text
  | [] => []
  | line :: lines => (first ++ line) :: lines.map (rest ++ ·)

mutual

/-- The drawn labels, each with the connectors before it. -/
def lines : Tree → List Text
  | node label _ children => label :: childLines children

def childLines : List Tree → List Text
  | [] => []
  | [t] => hang lastBranch gap (lines t)
  | t :: u :: ts => hang branch bar (lines t) ++ childLines (u :: ts)

end

/-- Each line is ended by a line feed. -/
def render (t : Tree) : Text := t.lines.flatMap (· ++ ['\n'])

end FormalGrammar.Tree
