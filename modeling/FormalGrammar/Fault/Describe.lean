import FormalGrammar.Value.Display

/-!
# Describing faults

The texts of faults that a caller describes by their parts: an argument of the wrong kind,
a rejected definition, and malformed text with the line it is on. Where the caller does not
say which kinds a parameter takes, the declaration of the operation does.
-/

namespace FormalGrammar.Fault

/-- The declared parameters of the operations, with the kinds that they take. -/
def declarations : List (String × List (String × String)) :=
  [("Tree::__init__",
      [("label", "str"), ("terminal", "bool"),
        ("children", "typing.Optional[typing.Iterable[Tree]]")]),
    ("Tree::add_child", [("child", "Tree | str"), ("terminal", "bool"), ("return", "Tree")]),
    ("Grammar::decode", [("text", "str"), ("return", "Grammar")]),
    ("Grammar::add_production", [("nonterminal", "str"), ("rhs", "str"), ("return", "bool")]),
    ("GeneralTreeGenerator::generate", [("max_depth", "int"), ("return", "Tree.Tree")]),
    ("GrammarController::analyze", [("word", "str"), ("return", "Result.DerivationResult")]),
    ("is_symbol", [("value", "typing.Any"), ("return", "<class 'bool'>")]),
    ("raise_if",
      [("expression", "<class 'bool'>"), ("exception", "<class 'BaseException'>"),
        ("return", "None")]),
    ("KVP::decode", [("data", "str"), ("root_name", "str"), ("return", "KVP")]),
    ("KVP::encode", [("return", "str")])]

def declared (operation parameter : String) : Expected :=
  match (declarations.lookup operation).bind fun ps => ps.lookup parameter with
  | some kind => .kinds [kind]
  | none => .unknown

/-- The text for an argument of the wrong kind. It is empty when a part but the list of kinds is
missing. -/
def describeArgument (operation parameter : Option String) (got : Option Kind)
    (kinds : Option (List String)) : Except Fault String :=
  match operation, parameter, got with
  | some operation, some parameter, some got =>
    let expected : Expected := match kinds with
      | some names => .kinds names
      | none => declared operation parameter
    match expected.text? with
    | some shown => .ok (argumentMessage operation parameter shown got)
    | none => .error .noExpectedKinds
  | _, _, _ => .ok ""

/-- The text for a rejected definition. -/
def describeDefinition : List Value → Except Fault Text
  | [] => .ok []
  | [what] => what.display
  | parts => .error (.extraArguments "GrammarDefinitionError" 2 (parts.length + 1))

/-- The text for malformed text, and the line it is on. -/
def describeMalformed : List Value → Except Fault (Text × Value)
  | [] => .ok ([], .absent)
  | [what] => do return (← what.display, .absent)
  | [what, .absent] => do return (← what.display, .absent)
  | [what, line] => do
    return ((← what.display) ++ " - LINE.".toList ++ (← line.display), line)
  | parts => .error (.extraArguments "GrammarDecodeError" 3 (parts.length + 1))

/-! ## Conditions -/

/-- Fail with a fault if a condition is not as it should be. The fault itself is checked first;
a missing one stands for a failed assertion. -/
def check (operation : String) (fails : Bool) (fault : Option Value) : Except Fault Unit :=
  match fault with
  | none => if fails then .error .assertion else .ok ()
  | some (.fault f) => if fails then .error f else .ok ()
  | some v =>
    .error (.argument operation "exception" (.kinds ["<class 'BaseException'>"]) v.kind)

def raiseIf (condition : Value) (fault : Option Value) : Except Fault Unit :=
  check "raise_if" condition.isTrue fault

def raiseUnless (condition : Value) (fault : Option Value) : Except Fault Unit :=
  check "raise_ifn" (!condition.isTrue) fault

end FormalGrammar.Fault
