import FormalGrammar.Document.Basic
import FormalGrammar.Numeral.Real

/-!
# Reading documents

A document is read line by line; the blanks around a line do not count, and blank lines are
skipped. A line that begins with `>>` opens a namespace, one that begins with `<<` closes
the innermost open one, and any other line must hold a `=` between a key and its values.

The values are separated by `;`. A value may end with `&` and a letter that says how to read
it; without that it is a text, or the empty scalar if nothing is written. A `%` before `;`,
`&` or `%` makes that character stand for itself.
-/

namespace FormalGrammar.Document

/-! ## Failures -/

inductive LineFault where
  | namelessSpace
  | noSpaceToClose
  | emptyKey
  | unrecognized
  | emptyFormatted
  | notBool (value : Text)
  | notInt (value : Text)
  | notReal (value : Text)
  | noFormat
  | unknownFormat (format : Text)
  deriving DecidableEq

inductive ReadError where
  | atLine (number : Nat) (line : Text) (fault : LineFault)
  /-- The innermost namespace that is open at the end. -/
  | unclosed (name : Text)
  deriving DecidableEq

def LineFault.message : LineFault → String
  | .namelessSpace => "Namespace has no name"
  | .noSpaceToClose => "No matching namespace to close"
  | .emptyKey => "Key is empty"
  | .unrecognized => "Line is neither a namespace declaration nor a key value pair"
  | .emptyFormatted => "Format on empty value"
  | .notBool value => s!"Failed to format value '{value.str}' as boolean"
  | .notInt value => s!"Failed to format value '{value.str}' as integer"
  | .notReal value => s!"Failed to format value '{value.str}' as float"
  | .noFormat => "No formatter specified"
  | .unknownFormat format =>
    s!"Formatter is invalid: '{format.str}'; expected one of [ B, I, F, S ]"

def ReadError.message : ReadError → String
  | .atLine number line fault => s!"{fault.message} - LINE.{number} {line.str}"
  | .unclosed name => s!"Unclosed namespace: '{name.str}'"

/-! ## Values -/

/-- Whether `c` can be escaped by a `%`. -/
def isEscapable (c : Char) : Bool := c = '%' || c = ';' || c = '&'

/-- Put characters before the first of several pieces. -/
def prepend (cs : Text) : List Text → List Text
  | [] => [cs]
  | p :: ps => (cs ++ p) :: ps

/-- The pieces between the separators that are not escaped. Escapes are kept as they are. -/
def pieces : Text → List Text
  | [] => [[]]
  | '%' :: c :: r =>
    if isEscapable c then prepend ['%', c] (pieces r) else prepend ['%'] (pieces (c :: r))
  | ';' :: r => [] :: pieces r
  | c :: r => prepend [c] (pieces r)

/-- The parts before and after the last `&` that is not escaped. -/
def splitFormat : Text → Option (Text × Text)
  | [] => none
  | '%' :: c :: r =>
    if isEscapable c then (splitFormat r).map fun (value, format) => ('%' :: c :: value, format)
    else (splitFormat (c :: r)).map fun (value, format) => ('%' :: value, format)
  | '&' :: r =>
    match splitFormat r with
    | some (value, format) => some ('&' :: value, format)
    | none => some ([], r)
  | c :: r => (splitFormat r).map fun (value, format) => (c :: value, format)

/-- Resolve the escapes. -/
def unescape : Text → Text
  | [] => []
  | '%' :: c :: r => if isEscapable c then c :: unescape r else '%' :: unescape (c :: r)
  | c :: r => c :: unescape r

def readBool (value : Text) : Except LineFault Scalar :=
  if value = "true".toList then .ok (.bool true)
  else if value = "false".toList then .ok (.bool false)
  else
    match Numeral.Integer.read? value with
    | some n => .ok (.bool (n ≠ 0))
    | none => .error (.notBool value)

def readInt (value : Text) : Except LineFault Scalar :=
  match Numeral.Integer.read? value with
  | some n => .ok (.int n)
  | none => .error (.notInt value)

def readReal (value : Text) : Except LineFault Scalar :=
  match Numeral.Real.read? value with
  | some x => .ok (.real x)
  | none => .error (.notReal value)

/-- Read a value that is marked with a format. -/
def readFormatted (value format : Text) : Except LineFault Scalar :=
  if value.isEmpty then .error .emptyFormatted
  else
    match format with
    | [] => .error .noFormat
    | ['B'] => readBool value
    | ['I'] => readInt value
    | ['F'] => readReal value
    | ['S'] => .ok (.text value)
    | format => .error (.unknownFormat format)

/-- Read a trimmed piece. -/
def readScalar (piece : Text) : Except LineFault Scalar :=
  match splitFormat piece with
  | some (value, format) => readFormatted (unescape value) format
  | none => .ok (if piece.isEmpty then .none else .text (unescape piece))

def readScalars : List Text → Except LineFault (List Scalar)
  | [] => .ok []
  | piece :: rest =>
    match readScalar (Text.trim piece) with
    | .error fault => .error fault
    | .ok v =>
      match readScalars rest with
      | .error fault => .error fault
      | .ok vs => .ok (v :: vs)

def readValues (text : Text) : Except LineFault (List Scalar) := readScalars (pieces text)

/-! ## Lines -/

inductive Line where
  | opening (name : Text)
  | closing
  | pair (key values : Text)
  deriving DecidableEq

/-- What kind of line a trimmed line is. -/
def classify (line : Text) : Except LineFault Line :=
  if Text.startsWith ['>', '>'] line then
    let name := Text.trim (line.drop 2)
    if name.isEmpty then .error .namelessSpace else .ok (.opening name)
  else if Text.startsWith ['<', '<'] line then .ok .closing
  else
    match Text.cut ['='] line with
    | none => .error .unrecognized
    | some (before, after) =>
      let key := Text.trim before
      if key.isEmpty then .error .emptyKey else .ok (.pair key (Text.trim after))

/-! ## The whole text -/

/-- How far reading has come: the entries of the innermost open namespace, and for each open
namespace, from the inside out, its name and the entries around it. -/
structure Cursor where
  entries : Entries := .nil
  outer : List (Text × Entries) := []

def Cursor.step (c : Cursor) : Line → Except LineFault Cursor
  | .opening name => .ok ⟨.nil, (name, c.entries) :: c.outer⟩
  | .closing =>
    match c.outer with
    | [] => .error .noSpaceToClose
    | (name, around) :: outer => .ok ⟨around.put name (.space (some name) c.entries), outer⟩
  | .pair key text =>
    match readValues text with
    | .error fault => .error fault
    | .ok vs => .ok ⟨c.entries.put key (.values vs), c.outer⟩

def Cursor.readLine (c : Cursor) (line : Text) : Except LineFault Cursor :=
  match classify line with
  | .error fault => .error fault
  | .ok l => c.step l

def Cursor.readLines (c : Cursor) : List (Text × Nat) → Except ReadError Cursor
  | [] => .ok c
  | (line, number) :: rest =>
    match c.readLine line with
    | .error fault => .error (.atLine number line fault)
    | .ok c => c.readLines rest

/-- The lines that are not blank, trimmed, with their numbers from one. -/
def contentLines (t : Text) : List (Text × Nat) :=
  (((Text.splitOn '\n' t).zipIdx 1).map fun (line, number) => (Text.trim line, number)).filter
    fun (line, _) => !line.isEmpty

/-- Read the entries of a document. -/
def readEntries (t : Text) : Except ReadError Entries :=
  match Cursor.readLines {} (contentLines t) with
  | .error e => .error e
  | .ok c =>
    match c.outer with
    | [] => .ok c.entries
    | (name, _) :: _ => .error (.unclosed name)

def ofText (t : Text) (name : Option Text) : Except ReadError Document :=
  match readEntries t with
  | .error e => .error e
  | .ok entries => .ok ⟨name, entries⟩

end FormalGrammar.Document
