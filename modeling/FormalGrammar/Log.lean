import FormalGrammar.Calendar
import FormalGrammar.Level
import FormalGrammar.Text.Blank

/-!
# Logs

A log writes entries to a stream between an opening and a closing banner. Entries below its
level are dropped. Once the log has been ended, every further entry and every further
ending fails and writes nothing. The stream can be closed with the log, and also behind its
back, after which nothing can be written to it.
-/

namespace FormalGrammar

namespace Log

/-- A message with the local time, the zone and the level it was written at. -/
structure Entry where
  time : Moment
  zone : Zone
  level : Level
  message : Text
  deriving DecidableEq

/-- What is written to the stream in one go. -/
inductive Piece where
  | opening
  | entry (e : Entry)
  | closing
  deriving DecidableEq

def Entry.text (e : Entry) : Text :=
  e.time.text ++ " [ ".toList ++ e.zone.text ++ " ] [ ".toList ++ e.level.name.toList ++
    " ]: ".toList ++ e.message ++ ['\n']

def Piece.text : Piece → Text
  | .opening => "==========[ Log Opened ]==========\n\n".toList
  | .entry e => e.text
  | .closing => "\n==========[ Log Closed ]==========".toList

inductive Failure where
  /-- The log has been ended. -/
  | ended
  /-- The stream has been closed behind the log's back. -/
  | streamGone
  /-- The local time has no date. -/
  | noDate
  deriving DecidableEq

end Log

/-- A log with its clock and its stream. -/
structure Log where
  zone : Zone := Zone.utc
  level : Level := .debug
  now : Moment
  pieces : List Log.Piece := [.opening]
  isEnded : Bool := false
  streamClosed : Bool := false
  deriving DecidableEq

namespace Log

/-- What the stream holds. -/
def text (l : Log) : Text := l.pieces.flatMap Piece.text

def append (l : Log) (p : Piece) : Except Failure Log :=
  if l.streamClosed then .error .streamGone else .ok { l with pieces := l.pieces ++ [p] }

/-- The local time of an entry, or nothing if the entry is dropped. -/
def entryTime (l : Log) (level : Level) : Except Failure (Option Moment) :=
  if l.isEnded then .error .ended
  else if level.rank < l.level.rank then .ok none
  else
    match l.now.shift? l.zone.offset with
    | none => .error .noDate
    | some time => .ok (some time)

def appendEntry (l : Log) (time : Moment) (level : Level) (message : Text) : Except Failure Log :=
  l.append (.entry ⟨time, l.zone, level, Text.trim message⟩)

def write (l : Log) (level : Level) (message : Text) : Except Failure Log :=
  match l.entryTime level with
  | .error f => .error f
  | .ok none => .ok l
  | .ok (some time) => l.appendEntry time level message

/-- End the log and leave its stream open. -/
def detach (l : Log) : Except Failure Log :=
  if l.isEnded then .error .ended
  else
    match l.append .closing with
    | .error f => .error f
    | .ok l => .ok { l with isEnded := true }

/-- End the log and close its stream. -/
def close (l : Log) : Except Failure Log :=
  match l.detach with
  | .error f => .error f
  | .ok l => .ok { l with streamClosed := true }

def setLevel (l : Log) (level : Level) : Log := { l with level := level }

def setClock (l : Log) (now : Moment) : Log := { l with now := now }

def closeStream (l : Log) : Log := { l with streamClosed := true }

end Log

end FormalGrammar
