import FormalGrammar.Session.Definition

/-!
# The command line

Reads a grammar definition, analyses words and draws the general tree. What is printed and
what is logged are collected as text; a fault ends the run, and what came before it stands.
-/

namespace FormalGrammar.CommandLine

/-- The definition that is used when no file is named. -/
def sampleDefinition : String :=
  ">>grammar
\tterminals=a;b
\tnonterminals=S;A;B
\tstart=S
\t>>productions
\t\tS=aA;bB
\t\tA=aA;b
\t\tB=bB;ε
\t<<
<<
>>analysis
\tmax_depth=10&I
\ttree_depth=3&I
<<
"

def sampleWords : List Text := ["aab".toList, "bbb".toList, "ba".toList, []]

structure Output where
  printed : Text
  logged : Text
  fault : Option Fault

/-- A run so far: what was printed, and the session with its log. -/
structure Run where
  printed : Text
  session : Session

def Run.print (r : Run) (line : Text) : Run := { r with printed := r.printed ++ line ++ ['\n'] }

def Run.logged (r : Run) : Text :=
  match r.session.journal with
  | some l => l.text
  | none => []

def Run.stop (r : Run) (f : Fault) : Output := ⟨r.printed, r.logged, some f⟩

/-- Analyse the words in turn and print a report on each. -/
def Run.analyze (r : Run) : List Text → Except Output Run
  | [] => .ok r
  | word :: rest =>
    match r.session.analyze (.text word) with
    | (.error f, session) => .error ({ r with session }.stop f)
    | (.ok result, session) =>
      match result.report with
      | .error f => .error ({ r with session }.stop f)
      | .ok report => ({ r with session }.print report).analyze rest

def Run.drawTree (r : Run) : Except Output Run :=
  let depth := r.session.treeDepth
  let r := r.print s!"General tree (depth {depth}):".toList
  match r.session.generalTree .absent with
  | (.error f, session) => .error ({ r with session }.stop f)
  | (.ok tree, session) => .ok ({ r with session }.print tree.render)

/-- End the log. -/
def Run.finish (r : Run) : Output :=
  match r.session.journal with
  | none => ⟨r.printed, [], none⟩
  | some l =>
    match l.detach with
    | .error f => r.stop (.log f)
    | .ok l => ⟨r.printed, l.text, none⟩

/-- Run on the bytes of a file, or of none, with a clock for the log. -/
def run (file : Option ByteArray) (words : List Text) (now : Moment) : Output :=
  let log : Log := { level := .info, now }
  match Session.ofFile file (.log log) with
  | .error f => ⟨[], log.text, some f⟩
  | .ok session =>
    let r : Run := ⟨[], session⟩
    let r := r.print session.grammar.text |>.print [] |>.print session.requirementsReport
      |>.print []
    match r.analyze (if words.isEmpty then sampleWords else words) with
    | .error out => out
    | .ok r =>
      match r.drawTree with
      | .error out => out
      | .ok r => r.finish

end FormalGrammar.CommandLine
