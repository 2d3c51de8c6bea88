/-!
# Kinds of values

What kind of value a caller has passed, as it is named in messages: briefly, when a message
lists the kinds that a parameter takes, and in full, when it tells the kind that was passed.
-/

namespace FormalGrammar

inductive Kind where
  | absent
  | bool
  | int
  | real
  | text
  | list
  | tuple
  | map
  | bytes
  | opaqueObject
  | document
  | tree
  | grammar
  | verdict
  | level
  | zone
  | log
  | stream
  /-- A fault, by the name of its class. -/
  | fault (name : String)
  deriving DecidableEq, Repr

namespace Kind

def name : Kind → String
  | absent => "NoneType"
  | bool => "bool"
  | int => "int"
  | real => "float"
  | text => "str"
  | list => "list"
  | tuple => "tuple"
  | map => "dict"
  | bytes => "bytes"
  | opaqueObject => "object"
  | document => "KVP"
  | tree => "Tree"
  | grammar => "Grammar"
  | verdict => "Verdict"
  | level => "LogLevel"
  | zone => "timezone"
  | log => "Logger"
  | stream => "IOBase"
  | fault name => name

/-- The name with the module that the kind belongs to. -/
def qualifiedName : Kind → String
  | document => "GrammarAnalyzer.Parser.KVP.KVP"
  | tree => "GrammarAnalyzer.Tree.Tree"
  | grammar => "GrammarAnalyzer.Grammar.Grammar"
  | log => "GrammarAnalyzer.Logger.Logger"
  | zone => "datetime.timezone"
  | stream => "io.IOBase"
  | k => k.name

/-- The name in a message about what a value of the kind cannot do. -/
def objectName : Kind → String
  | zone => "datetime.timezone"
  | k => k.name

def fullName (k : Kind) : String :=
  match k with
  | verdict | level => s!"<enum '{k.name}'>"
  | k => s!"<class '{k.qualifiedName}'>"

def named : List Kind :=
  [absent, bool, int, real, text, list, tuple, map, bytes, opaqueObject, document, tree, grammar,
    verdict, level, zone, log, stream]

def ofName? (s : String) : Option Kind := named.find? fun k => k.name = s

end Kind

end FormalGrammar
