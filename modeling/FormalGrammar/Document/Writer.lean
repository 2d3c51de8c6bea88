import FormalGrammar.Document.Reader

/-!
# Writing documents

One line for each key with values, and a namespace between an opening and a closing line,
its own lines indented by a tab. Texts carry no format; the characters with a meaning of
their own are escaped in them. All other values but the empty one carry their format. An
integer without a numeral cannot be written.
-/

namespace FormalGrammar

def Scalar.isWritable : Scalar → Bool
  | .int n => Numeral.Integer.IsShort n
  | _ => true

def Entries.isWritable : Entries → Bool
  | .nil => true
  | .values _ vs rest => vs.all Scalar.isWritable && rest.isWritable
  | .space _ _ inner rest => inner.isWritable && rest.isWritable

namespace Document

def escape (t : Text) : Text := t.flatMap fun c => if isEscapable c then ['%', c] else [c]

def writeScalar : Scalar → Text
  | .none => []
  | .bool true => ['t', 'r', 'u', 'e', '&', 'B']
  | .bool false => ['f', 'a', 'l', 's', 'e', '&', 'B']
  | .int n => Numeral.Integer.write n ++ ['&', 'I']
  | .level l => Numeral.Integer.write l.rank ++ ['&', 'I']
  | .real x => Numeral.Real.write x ++ ['&', 'F']
  | .text t => escape t

def writeValues (vs : List Scalar) : Text := [';'].intercalate (vs.map writeScalar)

/-- The lines of a namespace `depth` levels down. -/
def lines (depth : Nat) : Entries → List Text
  | .nil => []
  | .values key vs rest =>
    (List.replicate depth '\t' ++ key ++ '=' :: writeValues vs) :: lines depth rest
  | .space key _ inner rest =>
    (List.replicate depth '\t' ++ '>' :: '>' :: key) ::
      (lines (depth + 1) inner ++
        (List.replicate depth '\t' ++ ['<', '<']) :: lines depth rest)

def text (d : Document) : Text := ['\n'].intercalate (lines 0 d.entries)

end Document

end FormalGrammar
