import FormalGrammar.Document.Build
import FormalGrammar.Session.Basic
import FormalGrammar.Text.Newline

/-!
# Sessions as documents

The namespace `grammar` lists the terminals, the nonterminals and the start, and has a
namespace `productions` with the bodies for each left-hand side. The namespace `analysis`
has the two settings; it and everything in it may be left out.
-/

namespace FormalGrammar.Session

/-! ## Keys -/

def grammarKey : Text := "grammar".toList
def terminalsKey : Text := "terminals".toList
def nonterminalsKey : Text := "nonterminals".toList
def startKey : Text := "start".toList
def productionsKey : Text := "productions".toList
def analysisKey : Text := "analysis".toList
def maxDepthKey : Text := "max_depth".toList
def treeDepthKey : Text := "tree_depth".toList

/-! ## Writing -/

private def texts (ts : List Text) : List Scalar := ts.map .text

/-- The bodies of each left-hand side. -/
def productionEntries : List (Char × List Form) → Entries
  | [] => .nil
  | (x, bodies) :: rest =>
    .values [x] (texts (bodies.map Form.text)) (productionEntries rest)

def grammarEntries (g : Grammar) : Entries :=
  .values terminalsKey (texts (g.terminals.map fun c => [c])) <|
  .values nonterminalsKey (texts (g.nonterminals.map fun c => [c])) <|
  .values startKey [match g.start with | some c => .text [c] | none => .none] <|
  .space productionsKey (some productionsKey) (productionEntries g.rules) .nil

def settingEntries (bound treeDepth : Nat) : Entries :=
  .values maxDepthKey [.int bound] (.values treeDepthKey [.int treeDepth] .nil)

def toDocument (s : Session) : Document :=
  ⟨none,
    .space grammarKey (some grammarKey) (grammarEntries s.grammar) <|
    .space analysisKey (some analysisKey) (settingEntries s.bound s.treeDepth) .nil⟩

/-- The text that a session is saved as. -/
def saved (s : Session) : Text := s.toDocument.text

/-! ## Reading -/

/-- The namespace under a key, which is empty if the key is missing. -/
def spaceAt (e : Entries) (key : Text) : Except Fault Entries :=
  match e.find? key with
  | none => .ok .nil
  | some (.space _ inner) => .ok inner
  | some (.values _) => .error (.spaceExpected key)

/-- A value in a list, unless it is empty. -/
def listed? : Scalar → Option Value
  | .none => none
  | v => some (.ofScalar v)

/-- The texts of the values under a key but the empty ones. -/
def textsAt (e : Entries) (key : Text) : Except Fault (List Value) :=
  match e.find? key with
  | none => .ok []
  | some (.space ..) => .error (.listExpected key)
  | some (.values vs) =>
    (vs.filterMap listed?).mapM fun v => do return .text (← v.display)

/-- Every key of a namespace with its texts. -/
def alternativesIn (e : Entries) : Except Fault (List (Value × Value)) :=
  e.keys.mapM fun key => do return (.text key, .list (← textsAt e key))

/-- The fault of a setting that is no integer. -/
def settingRefusal (key : Text) (v : Scalar) : Fault :=
  match (Value.ofScalar v).display with
  | .error f => f
  | .ok shown => .settingNotInt key shown

/-- The integer of a setting. A truth value counts as one or zero, and the fraction of a number
is dropped. -/
def settingAt (e : Entries) (key : Text) (default : Nat) : Except Fault Value :=
  match e.first? key with
  | none => .ok (.int default)
  | some v =>
    match v with
    | .bool b => .ok (.int (if b then 1 else 0))
    | .int n => .ok (.int n)
    | .level l => .ok (.int l.rank)
    | .real x =>
      match Numeral.Real.truncate? x with
      | some n => .ok (.int n)
      | none =>
        .error (if Numeral.Real.isInfinite x then .infiniteToInt else settingRefusal key v)
    | .text t =>
      match Numeral.Integer.read? t with
      | some n => .ok (.int n)
      | none => .error (settingRefusal key v)
    | .none => .error (settingRefusal key v)

def ofDocument (d : Document) (log : Value) : Except Fault Session := do
  let definition ← match d.entries.find? grammarKey with
    | some (.space _ inner) => .ok inner
    | _ => .error .noGrammarSpace
  let productions ← spaceAt definition productionsKey
  let analysis ← spaceAt d.entries analysisKey
  let terminals ← textsAt definition terminalsKey
  let nonterminals ← textsAt definition nonterminalsKey
  let start := (definition.first? startKey).elim .absent Value.ofScalar
  let alternatives ← alternativesIn productions
  let g ← Grammar.build (.list terminals) (.list nonterminals) start (.map alternatives)
  let bound ← settingAt analysis maxDepthKey Analysis.defaultBound
  let treeDepth ← settingAt analysis treeDepthKey defaultTreeDepth
  build (.grammar ⟨g, none⟩) bound treeDepth log

/-- Read the text of a document. -/
def ofText (t : Text) (log : Value) : Except Fault Session :=
  match Document.ofText t none with
  | .error e => .error (.documentText e)
  | .ok d => ofDocument d log

/-- A session from a document, or from a value that should be the text of one. -/
def ofValue (v log : Value) : Except Fault Session :=
  match v with
  | .document d => ofDocument d log
  | v =>
    match Document.ofValue v none with
    | .error f => .error f
    | .ok d => ofDocument d log

/-- A session from the bytes of a file, or from no file at all. -/
def ofFile (bytes : Option ByteArray) (log : Value) : Except Fault Session :=
  match bytes with
  | none => .error .missingFile
  | some bytes =>
    match String.fromUTF8? bytes with
    | none => .error .notUtf8
    | some s => ofText (Text.normalizeNewlines s.toList) log

end FormalGrammar.Session
