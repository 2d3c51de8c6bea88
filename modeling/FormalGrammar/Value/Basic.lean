import FormalGrammar.Document.Basic
import FormalGrammar.RuleBook
import FormalGrammar.Tree.Basic
import FormalGrammar.Verdict

/-!
# Values

What a caller may pass to an operation. The operations check the kinds of what they are
given, so values of every kind must be expressible, also those that no operation takes.
-/

namespace FormalGrammar

inductive Value where
  | absent
  | bool (b : Bool)
  | int (n : Int)
  | real (x : Float)
  | text (t : Text)
  | list (vs : List Value)
  | tuple (vs : List Value)
  | map (pairs : List (Value × Value))
  | bytes (bs : List UInt8)
  | opaqueObject
  | document (d : Document)
  | tree (t : Tree)
  /-- A node of a grove, by number. -/
  | node (id : Nat)
  | verdict (v : Verdict)
  | level (l : Level)
  | zone (z : Zone)
  | fault (f : Fault)
  | grammar (b : RuleBook)
  | log (l : Log)

namespace Value

def kind : Value → Kind
  | absent => .absent
  | bool _ => .bool
  | int _ => .int
  | real _ => .real
  | text _ => .text
  | list _ => .list
  | tuple _ => .tuple
  | map _ => .map
  | bytes _ => .bytes
  | opaqueObject => .opaqueObject
  | document _ => .document
  | tree _ | node _ => .tree
  | verdict _ => .verdict
  | level _ => .level
  | zone _ => .zone
  | fault f => .fault f.className
  | grammar _ => .grammar
  | log _ => .log

/-- The zone with an offset in microseconds, which must be less than a day. -/
def ofOffset (offset : Int) (name : Option Text) : Except Fault Value :=
  if Zone.isOffset offset then .ok (zone ⟨offset, name⟩) else .error (.zoneTooFar offset)

/-- The fault of passing a value as a parameter that takes other kinds. -/
def refusedBy (v : Value) (operation parameter : String) (expected : List Kind) : Fault :=
  .argument operation parameter (.kinds (expected.map Kind.name)) v.kind

def ofScalar : Scalar → Value
  | .none => absent
  | .bool b => bool b
  | .int n => int n
  | .level l => level l
  | .real x => real x
  | .text t => text t

def ofEntry : Entry → Value
  | .values vs => tuple (vs.map ofScalar)
  | .space name inner => document ⟨name, inner⟩

/-- The scalar that a value is, if it is one. -/
def scalar? : Value → Option Scalar
  | absent => some .none
  | bool b => some (.bool b)
  | int n => some (.int n)
  | level l => some (.level l)
  | real x => some (.real x)
  | text t => some (.text t)
  | _ => none

/-- Whether a condition that has this value holds: zeros and what is empty do not. -/
def isTrue : Value → Bool
  | absent => false
  | bool b => b
  | int n => n != 0
  | real x => !(x == 0)
  | text t => !t.isEmpty
  | list vs => !vs.isEmpty
  | tuple vs => !vs.isEmpty
  | map ps => !ps.isEmpty
  | bytes bs => !bs.isEmpty
  | document d => d.entries.size != 0
  | _ => true

/-- The members of a value, one after the other: characters, keys, codes, entries, nodes. -/
def members : Value → Except Fault (List Value)
  | text t => .ok (t.map fun c => text [c])
  | list vs => .ok vs
  | tuple vs => .ok vs
  | map ps => .ok (ps.map Prod.fst)
  | bytes bs => .ok (bs.map fun b => int b.toNat)
  | document d => .ok (d.entries.toList.map fun (k, e) => tuple [text k, ofEntry e])
  | tree t => .ok (t.nodes.map tree)
  | v => .error (.notIterable v.kind)

/-- An attribute of a value other than the one sought. Documents have their keys as attributes,
so that one may be found, but it cannot be called. -/
def missing (v : Value) (member : String) : Fault :=
  match v with
  | document d =>
    match d.entries.find? member.toList with
    | none => .missingEntry member.toList
    | some (.values _) => .notCallable .tuple
    | some (.space ..) => .notCallable .document
  | v => .noMember v.kind member

/-! ## Keys -/

/-- Whether a value can be a key of a mapping. -/
def isHashable : Value → Bool
  | list _ | map _ | tree _ | node _ | grammar _ => false
  | _ => true

def requireHashable (v : Value) : Except Fault Unit :=
  if v.isHashable then .ok () else .error (.unhashable v.kind)

/-- The integer that a number is equal to, if there is one. -/
def integer? : Value → Option Int
  | bool b => some (if b then 1 else 0)
  | int n => some n
  | level l => some l.rank
  | real x => (Numeral.Real.truncate? x).filter fun n => Float.ofInt n == x
  | _ => none

/-- Whether two values are the same key. Numbers are compared by what they count, whatever
their kind; objects without a content of their own are all different. -/
def sameKey (v w : Value) : Bool :=
  match v.integer?, w.integer? with
  | some m, some n => m == n
  | none, none =>
    match v, w with
    | absent, absent => true
    | real x, real y => x == y
    | text s, text t => s == t
    | bytes bs, bytes cs => bs == cs
    | verdict a, verdict b => a == b
    | zone a, zone b => a.offset == b.offset
    | _, _ => false
  | _, _ => false

/-- Set a key of a mapping: a key that is there keeps its place and its form. -/
def insertPair (key value : Value) : List (Value × Value) → List (Value × Value)
  | [] => [(key, value)]
  | (k, v) :: rest =>
    if sameKey k key then (k, value) :: rest else (k, v) :: insertPair key value rest

def insertPairs (pairs : List (Value × Value)) : List (Value × Value) → Except Fault Value
  | [] => .ok (map pairs)
  | (k, v) :: rest =>
    match k.requireHashable with
    | .error f => .error f
    | .ok () => insertPairs (insertPair k v pairs) rest

/-- The mapping that is made by setting each key in turn. -/
def ofPairs (pairs : List (Value × Value)) : Except Fault Value := insertPairs [] pairs

end Value

end FormalGrammar
