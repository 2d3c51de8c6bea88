import FormalGrammar.Search.Explore
import FormalGrammar.Value.Display

/-!
# Results of an analysis

A result holds the word, the verdict, the lines of the trace, a tree if the word is a
member, and the fault that broke the search off, if one did. It is shown in three forms: a
summary, a report, and a short text that tells results apart.
-/

namespace FormalGrammar

structure Result where
  word : Text
  verdict : Verdict
  tree : Option Tree := none
  trace : List Text := []
  /-- What broke the search off; `absent` if nothing did. -/
  error : Value := .absent

namespace Result

/-- A tree is kept for members only. -/
def make (word : Text) (verdict : Verdict) (tree : Option Tree) (trace : List Text)
    (error : Value) : Result :=
  ⟨word, verdict, if verdict = .member then tree else none, trace, error⟩

def isMember (r : Result) : Bool := r.verdict = .member

/-- The result of a search from a start form. -/
def ofVisit (word start : Form) (v : Search.Visit) : Result :=
  make word v.verdict (some (v.tree start)) (v.steps.map Search.Step.line) .absent

def ofFault (word : Text) (f : Fault) : Result := make word .error none [] (.fault f)

def ofInvalid (word : Text) : Result := make word .invalidGrammar none [] .absent

/-! ## From values -/

def build (word verdict tree trace error : Value) : Except Fault Result := do
  let operation := "DerivationResult::__init__"
  let word ← match word with
    | .text t => .ok t
    | v => .error (v.refusedBy operation "word" [.text])
  let verdict ← match verdict with
    | .verdict v => .ok v
    | v => .error (v.refusedBy operation "verdict" [.verdict])
  let tree ← match tree with
    | .absent => .ok none
    | .tree t => .ok (some t)
    | v => .error (v.refusedBy operation "tree" [.tree, .absent])
  let trace ← (← trace.members).mapM Value.display
  return make word verdict tree trace error

/-! ## Texts -/

def joinLines (lines : List Text) : Text := ['\n'].intercalate lines

def summary (r : Result) : Text :=
  let answer := if r.isMember then "YES" else "NO"
  let trace :=
    if r.isMember && !r.trace.isEmpty then [] :: "Derivation steps:".toList :: r.trace else []
  joinLines (["Word: ".toList ++ Form.text r.word,
    s!"Membership: {answer} ({r.verdict.text})".toList] ++ trace)

/-- Why a word is not said to belong to the language. -/
def reason (r : Result) : Except Fault Text :=
  match r.verdict with
  | .inconclusive => .ok
    ("No derivation was found within the search depth limit; " ++
      "a longer derivation may still exist.").toList
  | .invalidGrammar => .ok "The grammar is incomplete, so no derivation was attempted.".toList
  | .error => do
    return s!"The analysis failed with an internal error: {r.error.kind.name}: ".toList ++
      (← r.error.display)
  | _ => .ok "No derivation sequence generates this word.".toList

def report (r : Result) : Except Fault Text := do
  let heading :=
    ["=== ANALYSIS REPORT ===".toList, [], "Word: \"".toList ++ r.word ++ ['"'], []]
  if r.isMember then
    let verdict := ["Result: The word belongs to the language.".toList, []]
    let trace := if r.trace.isEmpty then [] else ["Derivation:".toList] ++ r.trace ++ [[]]
    let tree := match r.tree with
      | some t => ["Derivation tree:".toList, t.render]
      | none => []
    return joinLines (heading ++ verdict ++ trace ++ tree)
  else
    return joinLines (heading ++
      ["Result: The word does not belong to the language.".toList, [], ← r.reason]) ++ ['\n']

/-- Word and verdict, marked as one object among others. -/
def instanceText (r : Result) : Text :=
  "<DerivationResult[".toList ++ Text.quoted r.word ++
    s!": {r.verdict.text}] instance @ 0X*>".toList

end Result

end FormalGrammar
