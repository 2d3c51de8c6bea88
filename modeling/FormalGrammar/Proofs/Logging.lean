import FormalGrammar.Proofs.Analysing
import FormalGrammar.Proofs.Numerals
import FormalGrammar.Log.Open
import Mathlib.Data.List.Induction

/-!
# What is written to a log

An open log writes an entry for each message that is not below its level, unless there is no date
or no text for the entry (`Log.note_of_open`). Of a run of calls it therefore holds an entry for each
message that came before the end, was not below the level in force by then and could be put into
words, and at last the closing banner, if a call has ended the log (`Log.Written.afterCalls`). A call
that fails leaves the log as it was, and after the end each call but a change of the level fails.

Main statement: `Log.text_afterCalls`. Not every message to an open log has an entry
(`Log.text_afterCalls_wordless`).
-/

namespace FormalGrammar

namespace Log

/-! ## Calls -/

inductive Call where
  | note (level : Level) (message : Value)
  | setLevel (level : Value)
  | close
  | detach

namespace Call

/-- Whether the call is one that ends a log. -/
def isEnding : Call → Bool
  | close | detach => true
  | _ => false

/-- Whether the call is about the level. -/
def isChange : Call → Bool
  | setLevel _ => true
  | _ => false

/-- The level that the call sets; what is no level sets none. -/
def level? : Call → Option Level
  | setLevel (.level level) => some level
  | _ => none

end Call

def call (l : Log) : Call → Except Fault Log
  | .note level message => l.writeValue level message
  | .setLevel level => l.setLevelTo level
  | .close => l.close.mapError .log
  | .detach => l.detach.mapError .log

/-- The log after a call; one that fails changes nothing. -/
def afterCall (l : Log) (c : Call) : Log :=
  match l.call c with
  | .ok l' => l'
  | .error _ => l

def afterCalls (l : Log) (cs : List Call) : Log := cs.foldl afterCall l

/-! ## What calls should write -/

/-- Each call with the calls before it. -/
def moments (cs : List Call) : List (List Call × Call) :=
  cs.zipIdx.map fun (c, i) => (cs.take i, c)

/-- The level in force after calls: the one that was set last. -/
def levelAfter (first : Level) (cs : List Call) : Level :=
  (cs.filterMap Call.level?).getLast?.getD first

/-- What a call is to write to the log `l` while a level is in force: an entry, if it is a message
that is not below the level. Such a message fails if the clock of the log shows no date, and if it
has no text. -/
def Call.entry (l : Log) (inForce : Level) : Call → Except Fault (Option Entry)
  | .note level message =>
    if level.rank < inForce.rank then .ok none
    else
      match l.now.shift? l.zone.offset, message.display with
      | none, _ => .error (.log .noDate)
      | some _, .error f => .error f
      | some time, .ok text => .ok (some ⟨time, l.zone, level, Text.trim text⟩)
  | _ => .ok none

/-- The entry that a call has while a level is in force, if it has one. -/
def Call.written? (l : Log) (inForce : Level) (c : Call) : Option Entry :=
  match c.entry l inForce with
  | .error _ => none
  | .ok e => e

/-- The entries of calls to a log that was opened as `first`, as long as no call has ended it. -/
def entriesOf (first : Log) (cs : List Call) : List Entry :=
  (moments cs).flatMap fun (before, c) =>
    if before.any Call.isEnding then []
    else (c.written? first (levelAfter first.level before)).toList

variable {l first : Log} {c : Call} {cs : List Call}

theorem moments_concat (cs : List Call) (c : Call) :
    moments (cs ++ [c]) = moments cs ++ [(cs, c)] := by
  have hfront : cs.zipIdx.map (fun p => ((cs ++ [c]).take p.2, p.1)) = moments cs := by
    refine List.map_congr_left fun p hp => ?_
    have hi : p.2 < cs.length := by simpa using List.snd_lt_of_mem_zipIdx hp
    rw [List.take_append_of_le_length (Nat.le_of_lt hi)]
  rw [moments, List.zipIdx_append, List.map_append, hfront]
  simp

theorem levelAfter_concat (first : Level) (cs : List Call) (c : Call) :
    levelAfter first (cs ++ [c]) = c.level?.getD (levelAfter first cs) := by
  rw [levelAfter, List.filterMap_append]
  cases hc : c.level? with
  | none => simp [levelAfter, hc]
  | some level => simp [hc]

theorem entriesOf_concat (first : Log) (cs : List Call) (c : Call) :
    entriesOf first (cs ++ [c]) = entriesOf first cs ++
      if cs.any Call.isEnding then [] else (c.written? first (levelAfter first.level cs)).toList := by
  rw [entriesOf, moments_concat, List.flatMap_append, List.flatMap_singleton, ← entriesOf]

/-- What a call is to write depends on no more of the log than its clock and its zone. -/
theorem entry_congr (hn : l.now = first.now) (hz : l.zone = first.zone) (inForce : Level)
    (c : Call) : c.entry l inForce = c.entry first inForce := by
  cases c with
  | note level message => simp only [Call.entry, hn, hz]
  | _ => rfl

/-! ## Open logs and ended ones -/

theorem detach_of_open (hn : l.isEnded = false) (hs : l.streamClosed = false) :
    l.detach = .ok { l with pieces := l.pieces ++ [.closing], isEnded := true } := by
  simp only [detach, hn, append, hs, Bool.false_eq_true, ↓reduceIte]

/-- A message to an open log. -/
theorem note_of_open (hn : l.isEnded = false) (hs : l.streamClosed = false) (level : Level)
    (message : Value) :
    l.call (.note level message) =
      match (Call.note level message).entry l l.level with
      | .error f => .error f
      | .ok e => .ok { l with pieces := l.pieces ++ e.toList.map .entry } := by
  have hn' : ¬ l.isEnded = true := by simp [hn]
  simp only [call, writeValue, entryTime, Call.entry, if_neg hn']
  by_cases hl : level.rank < l.level.rank
  · simp [hl]
  · simp only [hl, ↓reduceIte]
    cases l.now.shift? l.zone.offset with
    | none => rfl
    | some time =>
      cases message.display with
      | error f => rfl
      | ok text => simp [appendEntry, append, hs, Except.mapError]

/-- Before the end a call that is not about the level fails only if its entry does. -/
theorem call_of_open (hn : l.isEnded = false) (hs : l.streamClosed = false)
    (hc : c.isChange = false) :
    (∀ e, c.entry l l.level = .ok e → ∃ l', l.call c = .ok l') ∧
      ∀ f, c.entry l l.level = .error f → l.call c = .error f := by
  have hd := detach_of_open hn hs
  cases c with
  | setLevel v => cases hc
  | note level message =>
    rw [note_of_open hn hs]
    exact ⟨fun e he => ⟨_, by rw [he]⟩, fun f hf => by rw [hf]⟩
  | close =>
    simp only [call, close, hd, Except.mapError]
    exact ⟨fun _ _ => ⟨_, rfl⟩, nofun⟩
  | detach =>
    simp only [call, hd, Except.mapError]
    exact ⟨fun _ _ => ⟨_, rfl⟩, nofun⟩

/-- After the end every such call fails. -/
theorem call_of_isEnded (h : l.isEnded = true) (hc : c.isChange = false) :
    l.call c = .error (.log .ended) := by
  have hd : l.detach = .error .ended := if_pos h
  cases c with
  | note level message => simp only [call, writeValue, entryTime, h, ↓reduceIte]
  | setLevel v => cases hc
  | close => simp only [call, close, hd, Except.mapError]
  | detach => simp only [call, hd, Except.mapError]

theorem setLevelTo_of_refused {v : Value} (hv : ∀ level, v ≠ .level level) :
    ∃ f, l.setLevelTo v = .error f := by
  cases v with
  | level level => exact absurd rfl (hv level)
  | _ => exact ⟨_, rfl⟩

theorem afterCall_setLevel (l : Log) (v : Value) :
    l.afterCall (.setLevel v) = { l with level := (Call.setLevel v).level?.getD l.level } := by
  cases v <;> rfl

theorem afterCall_of_isEnded (h : l.isEnded = true) (c : Call) :
    l.afterCall c = { l with level := c.level?.getD l.level } := by
  cases c with
  | setLevel v => exact afterCall_setLevel l v
  | note level message => rw [afterCall, call_of_isEnded h rfl]; rfl
  | close => rw [afterCall, call_of_isEnded h rfl]; rfl
  | detach => rw [afterCall, call_of_isEnded h rfl]; rfl

/-- A call to an open log. Whether one that ends the log has closed the stream as well is left
open. -/
theorem afterCall_of_open (hn : l.isEnded = false) (hs : l.streamClosed = false) (c : Call) :
    ∃ closed, (c.isEnding = false → closed = false) ∧ l.afterCall c = { l with
      level := c.level?.getD l.level
      pieces := l.pieces ++ (c.written? l l.level).toList.map .entry ++
        if c.isEnding then [.closing] else []
      isEnded := c.isEnding
      streamClosed := closed } := by
  have hd := detach_of_open hn hs
  cases c with
  | note level message =>
    refine ⟨false, fun _ => rfl, ?_⟩
    have hkept : l = { l with isEnded := false, streamClosed := false } := by
      cases l
      cases hn
      cases hs
      rfl
    rw [afterCall, note_of_open hn hs, Call.written?]
    cases (Call.note level message).entry l l.level with
    | error f => simpa [Call.isEnding, Call.level?] using hkept
    | ok e => simp [Call.isEnding, Call.level?, hn, hs]
  | setLevel v =>
    refine ⟨false, fun _ => rfl, ?_⟩
    rw [afterCall_setLevel]
    simp [Call.written?, Call.entry, Call.isEnding, hn, hs]
  | close =>
    refine ⟨true, nofun, ?_⟩
    simp only [afterCall, call, close, hd, Except.mapError]
    simp [Call.written?, Call.entry, Call.isEnding, Call.level?]
  | detach =>
    refine ⟨l.streamClosed, nofun, ?_⟩
    simp only [afterCall, call, hd, Except.mapError]
    simp [Call.written?, Call.entry, Call.isEnding, Call.level?]

theorem afterCalls_append (l : Log) (cs more : List Call) :
    l.afterCalls (cs ++ more) = (l.afterCalls cs).afterCalls more :=
  List.foldl_append

/-- What an ended log has written stays. -/
theorem pieces_afterCalls_of_isEnded (h : l.isEnded = true) (cs : List Call) :
    (l.afterCalls cs).pieces = l.pieces := by
  induction cs generalizing l with
  | nil => rfl
  | cons c cs ih =>
    change ((l.afterCall c).afterCalls cs).pieces = l.pieces
    rw [afterCall_of_isEnded h c]
    exact ih h

theorem afterCalls_concat (l : Log) (cs : List Call) (c : Call) :
    l.afterCalls (cs ++ [c]) = (l.afterCalls cs).afterCall c :=
  afterCalls_append l cs [c]

/-! ## Runs -/

/-- What the log `l` has become of the log `first` by calls, while its clock stood still. -/
structure Written (first : Log) (cs : List Call) (l : Log) : Prop where
  now : l.now = first.now
  zone : l.zone = first.zone
  level : l.level = levelAfter first.level cs
  ended : l.isEnded = cs.any Call.isEnding
  stream : l.isEnded = false → l.streamClosed = false
  pieces : l.pieces = first.pieces ++ (entriesOf first cs).map .entry ++
    if cs.any Call.isEnding then [.closing] else []

namespace Written

theorem refl (hn : first.isEnded = false) (hs : first.streamClosed = false) :
    first.Written [] first where
  now := rfl
  zone := rfl
  level := rfl
  ended := hn
  stream _ := hs
  pieces := by simp [entriesOf, moments]

/-- **A call does to a log what its entry says.** -/
theorem afterCall (h : first.Written cs l) (c : Call) :
    first.Written (cs ++ [c]) (l.afterCall c) := by
  have hpieces := h.pieces
  rw [← h.ended] at hpieces
  have hany : (cs ++ [c]).any Call.isEnding = (l.isEnded || c.isEnding) := by simp [h.ended]
  have hlevel : c.level?.getD l.level = levelAfter first.level (cs ++ [c]) := by
    rw [levelAfter_concat, h.level]
  have hentries := entriesOf_concat first cs c
  rw [← h.ended, ← h.level] at hentries
  cases he : l.isEnded with
  | true =>
    rw [afterCall_of_isEnded he]
    rw [he] at hany hentries hpieces
    refine ⟨h.now, h.zone, hlevel, he.trans hany.symm, h.stream, ?_⟩
    simpa [hany, hentries] using hpieces
  | false =>
    have hwritten : c.written? l l.level = c.written? first l.level := by
      rw [Call.written?, entry_congr h.now h.zone, Call.written?]
    obtain ⟨closed, hclosed, hcall⟩ := afterCall_of_open he (h.stream he) c
    rw [he] at hany hentries hpieces
    rw [hcall, hwritten]
    refine ⟨h.now, h.zone, hlevel, hany.symm, hclosed, ?_⟩
    simp only [Bool.false_eq_true, ↓reduceIte, List.append_nil] at hpieces hentries
    simp only [hany, hentries, hpieces, Bool.false_or, List.map_append, List.append_assoc]

/-- **Calls do to a log what their entries say.** -/
theorem afterCalls (hn : first.isEnded = false) (hs : first.streamClosed = false)
    (cs : List Call) : first.Written cs (first.afterCalls cs) := by
  -- from the first call on, as what a call writes depends on those before it
  induction cs using List.reverseRecOn with
  | nil => exact .refl hn hs
  | append_singleton cs c ih =>
    rw [afterCalls_concat]
    exact ih.afterCall c

end Written

/-! ## Texts -/

/-- A log is opened on a stream that can be written, with a zone and a level. -/
theorem openOn_eq_ok {target : Target} {zone level : Value} {now : Moment}
    (h : openOn target zone level now = .ok l) :
    l.pieces = [.opening] ∧ l.isEnded = false ∧ l.streamClosed = false := by
  cases target with
  | value v => cases h
  | closed | readOnly =>
    cases zone with
    | zone z => cases level <;> cases h
    | _ => cases h
  | writable =>
    cases zone with
    | zone z =>
      cases level with
      | level first =>
        cases h
        exact ⟨rfl, rfl, rfl⟩
      | _ => cases h
    | _ => cases h

/-- The text of what calls have written: the entries behind the opening banner, and at last the
closing one. -/
theorem Written.text_eq (h : first.Written cs l) (hp : first.pieces = [.opening]) :
    l.text = Piece.opening.text ++ (entriesOf first cs).flatMap Entry.text ++
      if cs.any Call.isEnding then Piece.closing.text else [] := by
  have hentry : (fun e => (Piece.entry e).text) = Entry.text := rfl
  rw [text, h.pieces, hp, List.flatMap_append, List.flatMap_append, List.flatMap_singleton,
    List.flatMap_map, hentry]
  cases cs.any Call.isEnding with
  | true => rw [if_pos rfl, if_pos rfl, List.flatMap_singleton]
  | false => rw [if_neg Bool.false_ne_true, if_neg Bool.false_ne_true, List.flatMap_nil]

/-- A call that fails leaves the log as it was. -/
theorem afterCalls_of_error {f : Fault} (h : (l.afterCalls cs).call c = .error f) :
    l.afterCalls (cs ++ [c]) = l.afterCalls cs := by
  rw [afterCalls_concat, afterCall, h]

/-- **What a log has written after any run of calls**: the opening banner, an entry for each message
that came before the end, was not below the level in force by then and had a date and a text, and the
closing banner if a call has ended the log. Until then a message fails only for the date or the text
that it lacks, which leaves the log as it was, and no ending fails. From then on they all fail, and
the text stays as it is whatever is called. The level in force is the one that was set last, and a
change to what is no level leaves the log as it was. The clock of the log stands still. -/
theorem text_afterCalls {target : Target} {zone level : Value} {now : Moment}
    (ho : openOn target zone level now = .ok l) (cs : List Call) :
    (l.afterCalls cs).text =
        Piece.opening.text ++ (entriesOf l cs).flatMap Entry.text ++
          (if cs.any Call.isEnding then Piece.closing.text else []) ∧
      (l.afterCalls cs).isEnded = cs.any Call.isEnding ∧
      (l.afterCalls cs).level = levelAfter l.level cs ∧
      (cs.any Call.isEnding = false → ∀ c, c.isChange = false →
        (∀ e, c.entry l (levelAfter l.level cs) = .ok e →
          ∃ l', (l.afterCalls cs).call c = .ok l') ∧
        ∀ f, c.entry l (levelAfter l.level cs) = .error f →
          (l.afterCalls cs).call c = .error f ∧ l.afterCalls (cs ++ [c]) = l.afterCalls cs) ∧
      (cs.any Call.isEnding = true →
        (∀ c, c.isChange = false →
          ∃ f, (l.afterCalls cs).call c = .error f ∧ f.className = "OSError") ∧
        ∀ more, (l.afterCalls (cs ++ more)).text = (l.afterCalls cs).text) ∧
      ∀ v, (∀ level, v ≠ .level level) → (∃ f, (l.afterCalls cs).call (.setLevel v) = .error f) ∧
        l.afterCalls (cs ++ [.setLevel v]) = l.afterCalls cs := by
  obtain ⟨hp, hn, hs⟩ := openOn_eq_ok ho
  have written := Written.afterCalls hn hs cs
  refine ⟨written.text_eq hp, written.ended, written.level, fun he c hc => ?_,
    fun he => ⟨fun c hc => ?_, fun more => ?_⟩, fun v hv => ?_⟩
  · have hopen : (l.afterCalls cs).isEnded = false := written.ended.trans he
    obtain ⟨taken, refused⟩ := call_of_open hopen (written.stream hopen) hc
    rw [entry_congr written.now written.zone, written.level] at taken refused
    exact ⟨taken, fun f hf => ⟨refused f hf, afterCalls_of_error (refused f hf)⟩⟩
  · exact ⟨_, call_of_isEnded (written.ended.trans he) hc, rfl⟩
  · have hended : (l.afterCalls cs).isEnded = true := written.ended.trans he
    rw [text, text, afterCalls_append, pieces_afterCalls_of_isEnded hended]
  · obtain ⟨f, hf⟩ := setLevelTo_of_refused (l := l.afterCalls cs) hv
    have hcall : (l.afterCalls cs).call (.setLevel v) = .error f := hf
    exact ⟨⟨f, hcall⟩, afterCalls_of_error hcall⟩

/-- A log at the level of warnings that is lowered, and ended with calls to come. -/
theorem text_afterCalls_lowered :
    let now : Moment := ⟨2024, 2, 29, 13, 5, 9, 78⟩
    let l : Log := { zone := Zone.utc, level := .warn, now }
    let cs : List Call := [
      .note .info (.text "first".toList), .note .error (.text " second ".toList),
      .setLevel (.text "INFO".toList), .note .info (.text "third".toList),
      .setLevel (.level .info), .note .info (.text "fourth".toList),
      .detach, .note .debug (.text "fifth".toList), .close, .setLevel (.level .debug)]
    openOn .writable (.zone Zone.utc) (.level .warn) now = .ok l ∧
      (l.afterCalls cs).text = Piece.opening.text ++
        ((Entry.mk now Zone.utc .error "second".toList).text ++
          (Entry.mk now Zone.utc .info "fourth".toList).text) ++ Piece.closing.text := by
  intro now l cs
  have ho : openOn .writable (.zone Zone.utc) (.level .warn) now = .ok l := rfl
  have hentries : entriesOf l cs =
      [⟨now, Zone.utc, .error, "second".toList⟩, ⟨now, Zone.utc, .info, "fourth".toList⟩] := by
    decide +kernel
  refine ⟨ho, ?_⟩
  rw [(text_afterCalls ho cs).1, hentries, List.flatMap_cons, List.flatMap_singleton]
  rfl

/-- A call that fails right after the log was opened has no entry. -/
theorem text_afterCalls_ne {f : Fault} (hp : l.pieces = [.opening]) (h : l.call c = .error f)
    (e : Entry) : (l.afterCalls [c]).text ≠ Piece.opening.text ++ e.text := by
  have hc : l.afterCalls ([] ++ [c]) = l.afterCalls [] := afterCalls_of_error h
  have htext : (l.afterCalls [c]).text = Piece.opening.text := by
    rw [← List.nil_append [c], hc, afterCalls, List.foldl_nil, text, hp, List.flatMap_singleton]
  rw [htext, Ne, List.self_eq_append_right]
  simp [Entry.text]

/-- Two messages to open logs, not below the level, that have no entry: a number that is too long
for a numeral, and a text at a moment that is in the year 10000 where the log is. -/
theorem text_afterCalls_wordless :
    (let l : Log := { now := ⟨2024, 2, 29, 13, 5, 9, 78⟩ }
      let c := Call.note .debug (.int Numeral.Integer.leastLong)
      openOn .writable (.zone Zone.utc) (.level .debug) l.now = .ok l ∧
        l.call c = .error .numeralTooLong ∧
        ∀ e : Entry, (l.afterCalls [c]).text ≠ Piece.opening.text ++ e.text) ∧
      let l : Log := { zone := ⟨3600 * 1000000, none⟩, now := ⟨9999, 12, 31, 23, 59, 59, 0⟩ }
      let c := Call.note .debug (.text ['x'])
      openOn .writable (.zone l.zone) (.level .debug) l.now = .ok l ∧
        l.call c = .error (.log .noDate) ∧
        ∀ e : Entry, (l.afterCalls [c]).text ≠ Piece.opening.text ++ e.text := by
  constructor
  · intro l c
    have htoo : numeral Numeral.Integer.leastLong = .error .numeralTooLong :=
      if_neg Numeral.Integer.not_isShort_leastLong
    have hnow : l.now.shift? l.zone.offset = some l.now := by decide +kernel
    have hcall : l.call c = .error .numeralTooLong := by
      rw [note_of_open rfl rfl, Call.entry, if_neg (by decide), hnow, Value.display_int, htoo]
    exact ⟨rfl, hcall, text_afterCalls_ne rfl hcall⟩
  · intro l c
    have hnow : l.now.shift? l.zone.offset = none := by decide +kernel
    have hcall : l.call c = .error (.log .noDate) := by
      rw [note_of_open rfl rfl, Call.entry, if_neg (by decide), hnow]
    exact ⟨rfl, hcall, text_afterCalls_ne rfl hcall⟩

end Log

end FormalGrammar
