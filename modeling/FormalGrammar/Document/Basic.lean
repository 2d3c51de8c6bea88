import FormalGrammar.Level
import FormalGrammar.Text.Basic

/-!
# Key-value documents

A document is a namespace: a sequence of distinct keys, each with a list of scalars or with
a nested namespace. Keys keep the place at which they were first set. A namespace has a
name of its own, which need not be the key it is stored under.
-/

namespace FormalGrammar

inductive Scalar where
  | none
  | bool (b : Bool)
  | int (n : Int)
  /-- A level of a log, which is written as its rank and read back as that integer. -/
  | level (l : Level)
  | real (x : Float)
  | text (t : Text)

/-- The entries of a namespace in order. Each constructor but the first puts one entry before
the others: a key with its values, or a key with the name and the entries of a namespace. -/
inductive Entries where
  | nil
  | values (key : Text) (vs : List Scalar) (rest : Entries)
  | space (key : Text) (name : Option Text) (inner rest : Entries)

/-- What a key is stored with. -/
inductive Entry where
  | values (vs : List Scalar)
  | space (name : Option Text) (inner : Entries)

structure Document where
  name : Option Text := none
  entries : Entries := .nil

namespace Entries

def cons (key : Text) : Entry → Entries → Entries
  | .values vs, rest => .values key vs rest
  | .space name inner, rest => .space key name inner rest

def toList : Entries → List (Text × Entry)
  | nil => []
  | values key vs rest => (key, .values vs) :: rest.toList
  | space key name inner rest => (key, .space name inner) :: rest.toList

def keys (e : Entries) : List Text := e.toList.map Prod.fst

def size (e : Entries) : Nat := e.toList.length

def find? (e : Entries) (key : Text) : Option Entry := e.toList.lookup key

def contains (e : Entries) (key : Text) : Bool := (e.find? key).isSome

/-- Store an entry under a key, in the key's place or else at the end. -/
def put (key : Text) (entry : Entry) : Entries → Entries
  | nil => cons key entry nil
  | values k vs rest => if k = key then cons key entry rest else values k vs (put key entry rest)
  | space k name inner rest =>
    if k = key then cons key entry rest else space k name inner (put key entry rest)

def erase (key : Text) : Entries → Entries
  | nil => nil
  | values k vs rest => if k = key then rest else values k vs (erase key rest)
  | space k name inner rest => if k = key then rest else space k name inner (erase key rest)

/-- The first value under a key, unless there is none or it is the empty scalar. -/
def first? (e : Entries) (key : Text) : Option Scalar :=
  match e.find? key with
  | some (.values (v :: _)) =>
    match v with
    | .none => none
    | v => some v
  | _ => none

theorem toList_cons (key : Text) (entry : Entry) (rest : Entries) :
    (cons key entry rest).toList = (key, entry) :: rest.toList := by
  cases entry <;> rfl

end Entries

/-- What a namespace without a name is called. Its name shows where the namespace is kept,
which no two namespaces share; the mark `*` stands for that place. -/
def Document.title (d : Document) : Text := d.name.getD "KVP @ 0x* (ROOT)".toList

end FormalGrammar
