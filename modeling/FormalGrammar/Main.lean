import FormalGrammar.CommandLine
import Std.Time.DateTime

/-! # The program: a file and words as arguments, both of which may be left out -/

namespace FormalGrammar.CommandLine

/-- The present in universal time. -/
def present : IO Moment := do
  let t ← Std.Time.Timestamp.now
  let epoch : Moment := ⟨1970, 1, 1, 0, 0, 0, 0⟩
  return (epoch.shift? (t.toNanosecondsSinceUnixEpoch.val / 1000)).getD epoch

/-- The bytes of the file that is named first, or of the sample if none is named. -/
def readFile : List String → IO (Option ByteArray)
  | [] => return some sampleDefinition.toUTF8
  | path :: _ => do
    try
      return some (← IO.FS.readBinFile path)
    catch _ => return none

end FormalGrammar.CommandLine

def main (args : List String) : IO UInt32 := do
  let file ← FormalGrammar.CommandLine.readFile args
  let now ← FormalGrammar.CommandLine.present
  let out := FormalGrammar.CommandLine.run file ((args.drop 1).map String.toList) now
  IO.print out.printed.str
  IO.eprint out.logged.str
  match out.fault with
  | none => return 0
  | some f =>
    IO.eprintln s!"{f.className}: {f.message}"
    return 1
