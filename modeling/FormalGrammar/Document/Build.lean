import FormalGrammar.Document.Writer
import FormalGrammar.Value.Display

/-!
# Documents and values of any kind

A document can be made from a mapping and changed key by key. A key is stored with a
scalar, with the scalars that a value has as members, or with a namespace, which is made
from a mapping or taken over from another document with its name.
-/

namespace FormalGrammar.Document

/-! ## Storing -/

/-- The entry for a value that is neither a mapping nor a document. -/
def valuesEntry (v : Value) : Except Fault Entry :=
  match v.scalar? with
  | some s => .ok (.values [s])
  | none =>
    match v.members with
    | .error _ => .error (.unstorable v.kind)
    | .ok vs =>
      match vs.mapM Value.scalar? with
      | some ss => .ok (.values ss)
      | none =>
        match (Value.tuple vs).display with
        | .error f => .error f
        | .ok shown => .error (.notScalars shown)

mutual

/-- The entry that a value is stored as under a key. -/
def entryFor (key : Text) : Value → Except Fault Entry
  | .document d => .ok (.space d.name d.entries)
  | .map pairs =>
    match putPairs .nil pairs with
    | .error f => .error f
    | .ok e => .ok (.space (some key) e)
  | v => valuesEntry v

/-- Store each pair in turn, under the text of its key. -/
def putPairs (e : Entries) : List (Value × Value) → Except Fault Entries
  | [] => .ok e
  | (k, v) :: rest =>
    match k.display with
    | .error f => .error f
    | .ok key =>
      match entryFor key v with
      | .error f => .error f
      | .ok entry => putPairs (e.put key entry) rest

end

/-- The name of a namespace, which may be left out. -/
def nameOf : Value → Except Fault (Option Text)
  | .absent => .ok none
  | v => v.display.map some

def build (name data : Value) : Except Fault Document :=
  match data with
  | .map pairs =>
    match nameOf name with
    | .error f => .error f
    | .ok name =>
      match putPairs .nil pairs with
      | .error f => .error f
      | .ok entries => .ok ⟨name, entries⟩
  | v => .error (.notMapping v.kind)

/-- Read a document from a value that should be its text. -/
def ofValue (v : Value) (name : Option Text) : Except Fault Document :=
  match v with
  | .text t =>
    match ofText t name with
    | .error e => .error (.documentText e)
    | .ok d => .ok d
  | .bytes _ => .error (.bytesExpected .text)
  | v => .error (v.missing "split")

/-! ## Access by key -/

def requireText : Value → Except Fault Text
  | .text t => .ok t
  | v => .error (.keyNotText v.kind)

/-- The entry under a key that must be there. -/
def item (d : Document) (key : Value) : Except Fault Value := do
  let key ← requireText key
  match d.entries.find? key with
  | some entry => return .ofEntry entry
  | none => throw (.missingKey key)

def set (d : Document) (key value : Value) : Except Fault Document := do
  let key ← requireText key
  return { d with entries := d.entries.put key (← entryFor key value) }

def delete (d : Document) (key : Value) : Except Fault Document := do
  let key ← requireText key
  if d.entries.contains key then return { d with entries := d.entries.erase key }
  else throw (.missingKey key)

/-- Look a key up. What is no text is not found. -/
def lookup (find : Entries → Text → Option Value) (d : Document) (key : Value) :
    Except Fault (Option Value) := do
  key.requireHashable
  match key with
  | .text key => return find d.entries key
  | _ => return none

def get (d : Document) (key default : Value) : Except Fault Value := do
  let found ← lookup (fun e k => (e.find? k).map .ofEntry) d key
  return found.getD default

def first (d : Document) (key default : Value) : Except Fault Value := do
  let found ← lookup (fun e k => (e.first? k).map .ofScalar) d key
  return found.getD default

def contains (d : Document) (key : Value) : Except Fault Bool := do
  return (← lookup (fun e k => (e.find? k).map .ofEntry) d key).isSome

def values (d : Document) : List Value := d.entries.toList.map fun (_, entry) => .ofEntry entry

/-! ## Attributes -/

inductive Attribute where
  | operation
  | value (v : Value)

def operations : List String := ["keys", "values", "get", "first", "encode", "decode"]

/-- What a name stands for: an operation of documents, the name of the namespace, or a key. -/
def attributeNamed (d : Document) (name : Text) : Except Fault Attribute :=
  if operations.contains name.str then .ok .operation
  else if name = "namespace".toList then .ok (.value (.text d.title))
  else
    match d.entries.find? name with
    | some entry => .ok (.value (.ofEntry entry))
    | none => .error (.missingEntry name)

/-! ## Nested namespaces -/

/-- Run an operation on the namespace that is reached by a path of keys, and put the changed
namespace back in its place. -/
def within {α : Type} (f : Document → Except Fault (α × Document)) :
    List Text → Document → Except Fault (α × Document)
  | [], d => f d
  | key :: path, d =>
    match d.entries.find? key with
    | none => .error (.missingKey key)
    | some (.values _) => .error (.badIndex .tuple)
    | some (.space name inner) =>
      match within f path ⟨name, inner⟩ with
      | .error e => .error e
      | .ok (a, changed) =>
        .ok (a, { d with entries := d.entries.put key (.space changed.name changed.entries) })

/-! ## Encoding -/

/-- The text of a value that must be a scalar. -/
def scalarText (v : Value) : Except Fault Text :=
  match v.scalar? with
  | some s => if s.isWritable then .ok (writeScalar s) else .error .numeralTooLong
  | none => .error (.unencodable v.kind)

/-- The text of a document, if all its numbers have numerals. -/
def encode (d : Document) : Except Fault Text :=
  if d.entries.isWritable then .ok d.text else .error .numeralTooLong

def instanceText (d : Document) : Text := FormalGrammar.instanceText .document d.title

end FormalGrammar.Document
