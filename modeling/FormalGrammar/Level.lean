/-! # How loud an entry of a log is, in five steps with a rank and a name each -/

namespace FormalGrammar

inductive Level where
  | debug | info | warn | error | critical
  deriving DecidableEq, Repr

namespace Level

def rank : Level → Nat
  | debug => 10
  | info => 20
  | warn => 30
  | error => 40
  | critical => 50

def name : Level → String
  | debug => "DEBUG"
  | info => "INFO"
  | warn => "WARN"
  | error => "ERROR"
  | critical => "CRITICAL"

def all : List Level := [debug, info, warn, error, critical]

def ofName? (s : String) : Option Level := all.find? fun l => l.name = s

end Level

end FormalGrammar
