import FormalGrammar.Value.Display

/-!
# Opening and using a log with values of any kind

A log is opened on a stream, for a zone and a level. What is passed is checked in this
order before the stream itself is.
-/

namespace FormalGrammar

/-- What a log may be opened on. -/
inductive Target where
  | writable
  | closed
  | readOnly
  | value (v : Value)

namespace Log

def openOn (target : Target) (zone level : Value) (now : Moment) : Except Fault Log := do
  let operation := "Logger::__init__"
  if let .value v := target then throw (v.refusedBy operation "stream" [.stream])
  let zone ← match zone with
    | .zone z => .ok z
    | v => .error (v.refusedBy operation "timezone" [.zone])
  let level ← match level with
    | .level l => .ok l
    | v => .error (v.refusedBy operation "level" [.level])
  match target with
  | .closed => throw .streamClosed
  | .readOnly => throw .streamReadOnly
  | _ => return { zone, level, now }

/-- Write the text of a value, which is made only for an entry that is not dropped. -/
def writeValue (l : Log) (level : Level) (v : Value) : Except Fault Log :=
  match l.entryTime level with
  | .error f => .error (.log f)
  | .ok none => .ok l
  | .ok (some time) =>
    match v.display with
    | .error f => .error f
    | .ok message => (l.appendEntry time level message).mapError .log

def setLevelTo (l : Log) : Value → Except Fault Log
  | .level level => .ok (l.setLevel level)
  | v => .error (v.refusedBy "Logger::level" "level" [.level])

end Log

end FormalGrammar
