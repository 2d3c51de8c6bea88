import FormalGrammar.Document.Reader
import FormalGrammar.Grammar.Text
import FormalGrammar.Kind
import FormalGrammar.Log

/-!
# Faults

Everything that can stop an operation, by its cause. A fault has a class, under which
callers know it, and a message.
-/

namespace FormalGrammar

/-- What a message says about the kinds that a parameter takes. -/
inductive Expected where
  | kinds (names : List String)
  | unknown
  deriving DecidableEq, Repr

/-- The kinds in quotes, joined by commas and a last "or". At least one kind must be named. -/
def Expected.text? : Expected → Option String
  | .unknown => some "<UNKNOWN>"
  | .kinds names =>
    match (names.map fun n => s!"'{n}'").reverse with
    | [] => none
    | [only] => some only
    | last :: others =>
      let listed := ", ".intercalate others.reverse
      some s!"either {listed} or {last}"

inductive Fault where
  /-- The parameter of an operation was passed a value of a kind it does not take. -/
  | argument (operation parameter : String) (expected : Expected) (got : Kind)
  | terminalRejected (shown : Text)
  | nonterminalRejected (shown : Text)
  | startRejected (shown : Text)
  | productionRejected (lhs rhs : Text)
  | grammarText (e : Grammar.ReadError)
  | documentText (e : Document.ReadError)
  /-- A grammar definition has no namespace for the grammar. -/
  | noGrammarSpace
  | spaceExpected (key : Text)
  | listExpected (key : Text)
  | settingNotInt (key shown : Text)
  | negativeBound (bound : Int)
  | treeDepthOutside (depth : Int)
  /-- An integer has too many digits to be written. -/
  | numeralTooLong
  | infiniteToInt
  | unencodable (k : Kind)
  | notMapping (k : Kind)
  | notScalars (shown : Text)
  | unstorable (k : Kind)
  | keyNotText (k : Kind)
  | missingKey (key : Text)
  | missingEntry (key : Text)
  | foreignChild
  | ownChild
  | unhashable (k : Kind)
  | notIterable (k : Kind)
  | unsized (k : Kind)
  | noMember (k : Kind) (member : String)
  | notCallable (k : Kind)
  | bytesExpected (k : Kind)
  | badIndex (k : Kind)
  /-- The offset of a time zone, in microseconds, is a day or more. -/
  | zoneTooFar (offset : Int)
  | noExpectedKinds
  | extraArguments (className : String) (most given : Nat)
  | assertion
  | log (f : Log.Failure)
  | streamClosed
  | streamReadOnly
  | missingFile
  | notUtf8
  /-- A fault that a caller supplies. -/
  | raised (className : String) (message : Text)
  deriving DecidableEq

namespace Fault

def className : Fault → String
  | argument .. => "InvalidArgumentException"
  | terminalRejected _ | nonterminalRejected _ | startRejected _ | productionRejected .. =>
    "GrammarDefinitionError"
  | grammarText _ | noGrammarSpace | spaceExpected _ | listExpected _ | settingNotInt .. =>
    "GrammarDecodeError"
  | documentText _ => "KVPDecodeError"
  | unencodable _ => "KVPEncodeError"
  | negativeBound _ | treeDepthOutside _ | numeralTooLong | ownChild | zoneTooFar _
  | log .streamGone => "ValueError"
  | infiniteToInt | log .noDate => "OverflowError"
  | notMapping _ | notScalars _ | unstorable _ | foreignChild | unhashable _ | notIterable _
  | unsized _ | notCallable _ | bytesExpected _ | badIndex _ | extraArguments .. => "TypeError"
  | keyNotText _ | assertion => "AssertionError"
  | missingKey _ => "KeyError"
  | missingEntry _ | noMember .. => "AttributeError"
  | noExpectedKinds => "IndexError"
  | log .ended | streamClosed | streamReadOnly => "OSError"
  | missingFile => "FileNotFoundError"
  | notUtf8 => "UnicodeDecodeError"
  | raised c _ => c

def argumentMessage (operation parameter : String) (expected : String) (got : Kind) : String :=
  s!"{operation} - parameter '{parameter}' must be {expected}; got '{got.fullName}'"

def message : Fault → String
  | argument operation parameter expected got =>
    argumentMessage operation parameter (expected.text?.getD "") got
  | terminalRejected shown => s!"Terminal rejected: '{shown.str}'"
  | nonterminalRejected shown => s!"Nonterminal rejected: '{shown.str}'"
  | startRejected shown => s!"Start symbol is not a nonterminal: '{shown.str}'"
  | productionRejected lhs rhs => s!"Production rejected: '{lhs.str} -> {rhs.str}'"
  | grammarText e => e.message
  | documentText e => e.message
  | noGrammarSpace => "Missing 'grammar' namespace"
  | spaceExpected key => s!"'{key.str}' must be a namespace"
  | listExpected key => s!"'{key.str}' must be a list of values, not a namespace"
  | settingNotInt key shown => s!"Setting '{key.str}' must be an integer; got '{shown.str}'"
  | negativeBound bound =>
    let shown := (Numeral.Integer.write bound).str
    s!"Maximum depth must be non-negative; got {shown}"
  | treeDepthOutside depth =>
    let shown := (Numeral.Integer.write depth).str
    s!"Tree depth must be between 1 and 10; got {shown}"
  | numeralTooLong =>
    (s!"Exceeds the limit ({Numeral.digitLimit} digits) for integer string conversion; " ++
      "use sys.set_int_max_str_digits() to increase the limit")
  | infiniteToInt => "cannot convert float infinity to integer"
  | unencodable k => s!"Unencodable type: '{k.fullName}'"
  | notMapping k => s!"KVP data must be a mapping; got '{k.fullName}'"
  | notScalars shown =>
    s!"One or more list values are not a bool, int, float, str or None - '{shown.str}'"
  | unstorable k => s!"Unstorable type: '{k.fullName}'"
  | keyNotText k => s!"KVP key must be 'str', got '{k.fullName}'"
  | missingKey key => key.str
  | missingEntry key => s!"KVP namespace has no key '{key.str}'"
  | foreignChild => "One or more tree children is not a Tree instance"
  | ownChild => "Tree cannot be its own child"
  | unhashable k => s!"unhashable type: '{k.name}'"
  | notIterable k => s!"'{k.objectName}' object is not iterable"
  | unsized k => s!"object of type '{k.objectName}' has no len()"
  | noMember k member => s!"'{k.objectName}' object has no attribute '{member}'"
  | notCallable k => s!"'{k.name}' object is not callable"
  | bytesExpected k => s!"a bytes-like object is required, not '{k.name}'"
  | badIndex k => s!"{k.name} indices must be integers or slices, not str"
  | zoneTooFar offset =>
    ("offset must be a timedelta strictly between -timedelta(hours=24) and " ++
      s!"timedelta(hours=24), not {Zone.span offset}.")
  | noExpectedKinds => "tuple index out of range"
  | extraArguments c most given =>
    s!"{c}.__init__() takes from 1 to {most} positional arguments but {given} were given"
  | assertion => "Assertion Failed"
  | log .ended => "Log is closed"
  | log .streamGone => "I/O operation on closed file"
  | log .noDate => "date value out of range"
  | streamClosed => "Stream is closed"
  | streamReadOnly => "Target stream is not writable"
  | missingFile => "No such file or directory"
  | notUtf8 => "invalid text"
  | raised _ m => m.str

end Fault

/-- The numeral of an integer, which must not be too long. -/
def numeral (n : Int) : Except Fault Text :=
  if Numeral.Integer.IsShort n then .ok (Numeral.Integer.write n) else .error .numeralTooLong

end FormalGrammar
