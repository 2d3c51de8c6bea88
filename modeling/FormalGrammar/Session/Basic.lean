import FormalGrammar.Exploration
import FormalGrammar.Grammar.Build

/-!
# Sessions

A session holds one grammar with the settings for its analysis and its exploration, the
log that both write to, and the result of the latest analysis. Every edit is noted in the
log, be it accepted or rejected. The note is put together even if there is no log.
-/

namespace FormalGrammar

structure Session where
  book : RuleBook
  bound : Nat
  treeDepth : Nat
  journal : Journal
  last : Option Result := none

namespace Session

def minTreeDepth : Nat := 1
def maxTreeDepth : Nat := 10
def defaultTreeDepth : Nat := 3

/-- The depth of a general tree, which must be in range. -/
def readTreeDepth (v : Value) : Except Fault Nat :=
  match Analysis.integer? v with
  | none => .error (v.refusedBy "GrammarController::general_tree" "max_depth" [.int])
  | some n =>
    if ¬ Numeral.Integer.IsShort n then .error .numeralTooLong
    else if (minTreeDepth : Int) ≤ n ∧ n ≤ maxTreeDepth then .ok n.toNat
    else .error (.treeDepthOutside n)

/-- The grammar of a new session; an absent one is empty. -/
def readGrammar : Value → Except Fault Value
  | .absent => .ok (.grammar ⟨{}, none⟩)
  | .grammar b => .ok (.grammar b)
  | v => .error (v.refusedBy "GrammarController::__init__" "grammar" [.grammar])

def build (grammar bound treeDepth log : Value) : Except Fault Session :=
  match readGrammar grammar with
  | .error f => .error f
  | .ok grammar =>
    match Analysis.readArguments grammar log bound with
    | .error f => .error f
    | .ok (book, journal, bound) =>
      match readTreeDepth treeDepth with
      | .error f => .error f
      | .ok treeDepth => .ok { book, bound, treeDepth, journal }

def grammar (s : Session) : Grammar := s.book.grammar

/-! ## Steps -/

/-- What the log says about an edit, and how loudly. -/
def editNote (accepted : Bool) (e : Edit) : Except Fault (Level × Text) := do
  let what ← e.text
  return if accepted then (.info, "Added ".toList ++ what) else (.warn, "Rejected ".toList ++ what)

/-- Edit the grammar, and tell whether the edit was accepted. -/
def edit (s : Session) (e : Edit) : Except Fault Bool × Session :=
  let (accepted, book) := s.book.edit e
  let s := { s with book }
  match editNote accepted e with
  | .error f => (.error f, s)
  | .ok (level, message) =>
    match s.journal.note level message with
    | .error f => (.error f, s)
    | .ok journal => (.ok accepted, { s with journal })

/-- Analyse a word and remember the result. -/
def analyze (s : Session) (word : Value) : Except Fault Result × Session :=
  match Analysis.runOn s.book s.bound word s.journal with
  | (.error f, journal) => (.error f, { s with journal })
  | (.ok r, journal) => (.ok r, { s with journal, last := some r })

/-- Generate the general tree, to the session's own depth if none is given. -/
def generalTree (s : Session) (depth : Value) : Except Fault Tree × Session :=
  let levels : Except Fault Nat := match depth with
    | .absent => .ok s.treeDepth
    | v => readTreeDepth v
  match levels with
  | .error f => (.error f, s)
  | .ok levels =>
    let (t, journal) := Exploration.run s.book levels s.journal
    (t, { s with journal })

def setBound (s : Session) (v : Value) : Except Fault Session :=
  match Analysis.readBound v with
  | .error f => .error f
  | .ok bound => .ok { s with bound }

/-! ## Minimum requirements -/

/-- What is counted, how many there are, and how many there must be. -/
def requirements (s : Session) : List (String × Nat × Nat) :=
  [("Terminal symbols", s.grammar.terminals.length, 2),
    ("Nonterminal symbols", s.grammar.nonterminals.length, 3),
    ("Productions", s.grammar.ruleCount, 3)]

def meetsRequirements (s : Session) : Bool :=
  s.requirements.all fun (_, count, least) => least ≤ count

def requirementsReport (s : Session) : Text :=
  Result.joinLines ("Minimum requirements:".toList ::
    s.requirements.map fun (what, count, least) =>
      let mark := if least ≤ count then '✓' else '✗'
      s!"- {what}: {count} of {least} minimum {mark}".toList)

end Session

end FormalGrammar
