import FormalGrammar.Result

/-!
# Analysing words

An analysis searches for a derivation of a word and notes in a log, if there is one, what
it does. A fault that arises on the way becomes a result with the verdict `error`; only a
log that cannot be written to can stop an analysis, and a word without a text.
-/

namespace FormalGrammar

/-- A log to write to, if there is one. -/
abbrev Journal := Option Log

namespace Journal

def note (j : Journal) (level : Level) (message : Text) : Except Fault Journal :=
  match j with
  | none => .ok none
  | some l =>
    match l.write level message with
    | .error f => .error (.log f)
    | .ok l => .ok (some l)

/-- Note a message that is put together only if there is a log, and may fail to be. -/
def noteMade (j : Journal) (level : Level) (message : Except Fault Text) : Except Fault Journal :=
  match j with
  | none => .ok none
  | some l =>
    match message with
    | .error f => .error f
    | .ok message => note (some l) level message

@[simp] theorem noteMade_ok (j : Journal) (level : Level) (message : Text) :
    j.noteMade level (.ok message) = j.note level message := by
  cases j <;> rfl

end Journal

namespace Analysis

def defaultBound : Nat := 10

/-! ## Arguments -/

/-- The integer that an argument is; a truth value is none. -/
def integer? : Value → Option Int
  | .int n => some n
  | .level l => some l.rank
  | _ => none

/-- The bound on the number of replacements. Its refusal is put into words beforehand, so a number
without a numeral is no bound. -/
def readBound (v : Value) : Except Fault Nat :=
  match integer? v with
  | none => .error (v.refusedBy "DerivationSearch::max_depth" "max_depth" [.int])
  | some n =>
    if ¬ Numeral.Integer.IsShort n then .error .numeralTooLong
    else if n < 0 then .error (.negativeBound n)
    else .ok n.toNat

def readBook : Value → Option RuleBook
  | .grammar b => some b
  | _ => none

def readJournal : Value → Option Journal
  | .absent => some none
  | .log l => some (some l)
  | _ => none

/-- The rule book, the log and the bound of an analysis. -/
def readArguments (grammar log bound : Value) : Except Fault (RuleBook × Journal × Nat) :=
  let operation := "DerivationSearch::__init__"
  match readBook grammar with
  | none => .error (grammar.refusedBy operation "grammar" [.grammar])
  | some b =>
    match readJournal log with
    | none => .error (log.refusedBy operation "logger" [.log, .absent])
    | some j =>
      match readBound bound with
      | .error f => .error f
      | .ok n => .ok (b, j, n)

/-! ## Analysis -/

/-- Search, if the rules can be looked up or need not be. -/
def search (b : RuleBook) (bound : Nat) (word : Text) : Except Fault Result :=
  let v := b.grammar.search word bound
  let found := Result.ofVisit word b.grammar.startForm v
  match b.outage with
  | some f => if v.consultsRules then .error f else .ok found
  | none => .ok found

private def number (n : Nat) : Text := Nat.toDigits 10 n

def skipped (word : Text) : Text :=
  s!"Analysis of \"{word.str}\" skipped: grammar is not valid".toList

def begun (word : Text) (bound : Nat) : Text :=
  s!"Analyzing \"{word.str}\" with maximum depth {(number bound).str}".toList

def finished (word : Text) (r : Result) : Text :=
  let steps := (number r.trace.length).str
  s!"Analysis of \"{word.str}\" finished: {r.verdict.text} after {steps} steps".toList

def failed (word : Text) (f : Fault) : Text :=
  s!"Analysis of \"{word.str}\" failed: {f.className}: {f.message}".toList

/-- Search between two notes; a fault stops it where it arises. -/
def attempt (b : RuleBook) (bound : Nat) (word : Text) (j : Journal) :
    Except Fault Result × Journal :=
  match j.note .debug (begun word bound) with
  | .error f => (.error f, j)
  | .ok j =>
    match search b bound word with
    | .error f => (.error f, j)
    | .ok r =>
      match j.note .debug (finished word r) with
      | .error f => (.error f, j)
      | .ok j => (.ok r, j)

/-- Analyse a word. -/
def run (b : RuleBook) (bound : Nat) (word : Text) (j : Journal) :
    Except Fault Result × Journal :=
  if !b.grammar.isValid then
    match j.note .warn (skipped word) with
    | .error f => (.error f, j)
    | .ok j => (.ok (.ofInvalid word), j)
  else
    match attempt b bound word j with
    | (.ok r, j) => (.ok r, j)
    | (.error f, j) =>
      match j.note .error (failed word f) with
      | .error f => (.error f, j)
      | .ok j => (.ok (.ofFault word f), j)

/-- Analyse the text of a value. -/
def runOn (b : RuleBook) (bound : Nat) (word : Value) (j : Journal) :
    Except Fault Result × Journal :=
  match word.display with
  | .error f => (.error f, j)
  | .ok word => run b bound word j

end Analysis

end FormalGrammar
