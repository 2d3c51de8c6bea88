import FormalGrammar.Proofs.Histories

/-!
# Logs at different levels

What a step notes depends on the session without its log (`Session.notes`), and an open log makes
entries of the notes that are not below its level (`Log.extend`). So a step answers the same with an
open log of any level as with none, and a log at a higher level holds the entries of one at a lower
level but for those that are below it. Each kind of step is looked at once, in
`Session.journal_step`; runs follow by induction.

Main statement: `Session.run_of_level_le`. It is about logs whose clock shows a date in their zone; a
log that needs a date where there is none fails (`Session.run_of_level_le_undated`).
-/

namespace FormalGrammar

/-! ## Notes -/

/-- What is noted, and how loudly. -/
abbrev Note := Level × Text

namespace Log

variable {l : Log} {low high : Level}

/-- The entry that a log makes of a note, if the note is not below its level. -/
def written? (l : Log) (n : Note) : Option Entry :=
  if n.1.rank < l.level.rank then none
  else (l.now.shift? l.zone.offset).map fun time => ⟨time, l.zone, n.1, Text.trim n.2⟩

/-- The log with the entries that it makes of notes. -/
def extend (l : Log) (notes : List Note) : Log :=
  { l with pieces := l.pieces ++ (notes.filterMap l.written?).map .entry }

theorem extend_nil (l : Log) : l.extend [] = l := by simp [extend]

theorem extend_append (l : Log) (xs ys : List Note) :
    l.extend (xs ++ ys) = (l.extend xs).extend ys := by
  have hentry : (l.extend xs).written? = l.written? := rfl
  rw [extend, extend, hentry, List.filterMap_append, List.map_append, ← List.append_assoc]
  rfl

theorem IsOpen.extend (h : l.IsOpen) (notes : List Note) : (l.extend notes).IsOpen :=
  ⟨h.not_ended, h.stream_open, h.dated⟩

theorem IsOpen.setLevel (h : l.IsOpen) (level : Level) : (l.setLevel level).IsOpen :=
  ⟨h.not_ended, h.stream_open, h.dated⟩

theorem IsOpen.write_eq (h : l.IsOpen) (level : Level) (message : Text) :
    l.write level message = .ok (l.extend [(level, message)]) := by
  obtain ⟨time, ht⟩ := h.dated
  rw [write_of_open h.not_ended h.stream_open ht]
  by_cases hl : level.rank < l.level.rank
  · simp [Log.extend, written?, hl]
  · simp [Log.extend, written?, hl, ht]

theorem written?_at (l : Log) (level : Level) (n : Note) :
    (l.setLevel level).written? n = if n.1.rank < level.rank then none
      else (l.now.shift? l.zone.offset).map fun time => ⟨time, l.zone, n.1, Text.trim n.2⟩ := rfl

/-- At a higher level a note becomes the entry that it is at a lower one, or none if it is below. -/
theorem written?_setLevel (hl : low.rank ≤ high.rank) (n : Note) :
    (l.setLevel high).written? n =
      ((l.setLevel low).written? n).filter fun e => high.rank ≤ e.level.rank := by
  rw [written?_at, written?_at]
  by_cases h : n.1.rank < high.rank
  · rw [if_pos h]
    split
    · rfl
    · cases l.now.shift? l.zone.offset with
      | none => rfl
      | some time => simp [Option.filter, h]
  · have hlow : ¬ n.1.rank < low.rank := by omega
    rw [if_neg h, if_neg hlow]
    cases l.now.shift? l.zone.offset with
    | none => rfl
    | some time => simp [Option.filter, Nat.le_of_not_lt h]

end Log

namespace Journal

variable {j : Journal}

/-- The log, if there is one, with the entries that it makes of notes. -/
def extend (j : Journal) (notes : List Note) : Journal := j.map fun l => l.extend notes

theorem extend_nil (j : Journal) : j.extend [] = j := by
  cases j with
  | none => rfl
  | some l => exact congrArg some l.extend_nil

theorem extend_append (j : Journal) (xs ys : List Note) :
    j.extend (xs ++ ys) = (j.extend xs).extend ys := by
  cases j with
  | none => rfl
  | some l => exact congrArg some (l.extend_append xs ys)

theorem IsOpen.extend (h : j.IsOpen) (notes : List Note) : (j.extend notes).IsOpen := by
  intro l hl
  obtain ⟨l', hj, rfl⟩ := Option.map_eq_some_iff.mp hl
  exact (h l' hj).extend notes

theorem IsOpen.note_eq (h : j.IsOpen) (level : Level) (message : Text) :
    j.note level message = .ok (j.extend [(level, message)]) := by
  cases j with
  | none => rfl
  | some l =>
    rw [Journal.note, (h l rfl).write_eq]
    rfl

end Journal

/-! ## Analyses and general trees -/

/-- What an analysis notes. -/
def Analysis.notes (b : RuleBook) (bound : Nat) (word : Text) : List Note :=
  if b.grammar.isValid then
    match search b bound word with
    | .ok r => [(.debug, begun word bound), (.debug, finished word r)]
    | .error f => [(.debug, begun word bound), (.error, failed word f)]
  else [(.warn, skipped word)]

theorem Analysis.journal_run (b : RuleBook) (bound : Nat) (word : Text) {j : Journal}
    (hj : j.IsOpen) : (run b bound word j).2 = j.extend (notes b bound word) := by
  have hnote := hj.note_eq
  have hnote' (n : Note) := (hj.extend [n]).note_eq
  have hpair (n n' : Note) : j.extend [n, n'] = (j.extend [n]).extend [n'] :=
    j.extend_append [n] [n']
  cases hv : b.grammar.isValid with
  | false => simp [run, notes, hv, hnote]
  | true =>
    cases hs : search b bound word with
    | ok r => simp [run, attempt, notes, hv, hs, hnote, hnote', hpair]
    | error f => simp [run, attempt, notes, hv, hs, hnote, hnote', hpair]

/-- What an exploration notes, for a number of levels that has a numeral. -/
def Exploration.notes (b : RuleBook) (levels : Int) : List Note :=
  if b.grammar.isValid then
    match (if 0 < levels then b.outage else none) with
    | some _ => []
    | none =>
      match generated levels (b.grammar.generalTree levels.toNat) with
      | .error _ => []
      | .ok message => [(.debug, message)]
  else [(.warn, "General tree requested for an invalid grammar".toList)]

theorem Exploration.journal_run (b : RuleBook) {levels : Int} (hl : Numeral.Integer.IsShort levels)
    {j : Journal} (hj : j.IsOpen) : (run b levels j).2 = j.extend (notes b levels) := by
  have hnote (level : Level) (message : Text) := hj.note_eq level message
  cases hv : b.grammar.isValid with
  | false => simp only [run, notes, hv, hnote, Bool.not_false, Bool.false_eq_true, ↓reduceIte]
  | true =>
    cases ho : if 0 < levels then b.outage else none with
    | some f =>
      simp only [run, notes, hv, ho, j.extend_nil, Bool.not_true, Bool.false_eq_true, ↓reduceIte]
    | none =>
      obtain ⟨message, hm⟩ := exists_generated hl (b.grammar.generalTree levels.toNat)
      simp only [run, notes, hv, ho, hm, hnote, Journal.noteMade_ok, Bool.not_true,
        Bool.false_eq_true, ↓reduceIte]

namespace Session

variable {s t : Session} {l : Log} {low high : Level}

/-! ## Steps -/

/-- What a step notes. -/
def notes (s : Session) : Step → List Note
  | .edit e =>
    match editNote (s.book.edit e).1 e with
    | .error _ => []
    | .ok note => [note]
  | .analyze word =>
    match word.display with
    | .error _ => []
    | .ok word => Analysis.notes s.book s.bound word
  | .generalTree depth =>
    match s.levelsFor depth with
    | .error _ => []
    | .ok levels => Exploration.notes s.book levels

/-- **With an open log, or none, a step notes what it has to.** -/
theorem journal_step (h : s.journal.IsOpen) (hd : s.treeDepth ≤ maxTreeDepth) (x : Step) :
    (s.step x).2.journal = s.journal.extend (s.notes x) := by
  cases x with
  | edit e =>
    simp only [step, Session.edit, notes]
    cases editNote (s.book.edit e).1 e with
    | error f => exact s.journal.extend_nil.symm
    | ok note => simp only [h.note_eq]
  | analyze word =>
    have hj : (Analysis.runOn s.book s.bound word s.journal).2 =
        s.journal.extend (s.notes (.analyze word)) := by
      simp only [Analysis.runOn, notes]
      cases word.display with
      | error f => exact s.journal.extend_nil.symm
      | ok word => exact Analysis.journal_run s.book s.bound word h
    simp only [step, analyze]
    split
    · next hr => rwa [hr] at hj
    · next hr => rwa [hr] at hj
  | generalTree depth =>
    rw [step, generalTree_of_levelsFor, notes]
    cases hl : s.levelsFor depth with
    | error f => exact s.journal.extend_nil.symm
    | ok levels => exact Exploration.journal_run s.book (isShort_levelsFor hd hl) h

theorem Alike.notes_eq (h : s.Alike t) (x : Step) : s.notes x = t.notes x := by
  cases x with
  | edit e => simp only [notes, h.book]
  | analyze word => simp only [notes, h.book, h.bound]
  | generalTree depth =>
    simp only [notes, h.book, h.levelsFor_eq]

/-! ## Runs -/

/-- The answers of the steps of a run. -/
def answers (s : Session) : List Step → List (Except Fault Answer)
  | [] => []
  | x :: steps => (s.step x).1 :: (s.step x).2.answers steps

/-- What the steps of a run note. -/
def allNotes (s : Session) : List Step → List Note
  | [] => []
  | x :: steps => s.notes x ++ (s.step x).2.allNotes steps

theorem journal_after (h : s.journal.IsOpen) (hd : s.treeDepth ≤ maxTreeDepth)
    (steps : List Step) : (s.after steps).journal = s.journal.extend (s.allNotes steps) := by
  induction steps generalizing s with
  | nil => exact s.journal.extend_nil.symm
  | cons x steps ih =>
    have hx := journal_step h hd x
    have hopen : (s.step x).2.journal.IsOpen := hx ▸ h.extend (s.notes x)
    rw [after, ih hopen ((s.treeDepth_step x).trans_le hd), hx, allNotes, Journal.extend_append]

/-- **Runs of sessions that are alike have the same answers and note the same.** -/
theorem Alike.run (h : s.Alike t) (hd : s.treeDepth ≤ maxTreeDepth) (steps : List Step) :
    s.answers steps = t.answers steps ∧ s.allNotes steps = t.allNotes steps := by
  induction steps generalizing s t with
  | nil => exact ⟨rfl, rfl⟩
  | cons x steps ih =>
    obtain ⟨hanswers, hnotes⟩ := ih (h.after_step x) ((s.treeDepth_step x).trans_le hd)
    exact ⟨by rw [answers, answers, h.step_eq hd, hanswers],
      by rw [allNotes, allNotes, h.notes_eq, hnotes]⟩

/-! ## One run at two levels -/

/-- The session without a log. -/
def silent (s : Session) : Session := { s with journal := none }

/-- The session with a log at some level. -/
def logging (s : Session) (l : Log) (level : Level) : Session :=
  { s with journal := some (l.setLevel level) }

theorem isOpen_logging (s : Session) (h : l.IsOpen) (level : Level) :
    (s.logging l level).journal.IsOpen := by
  intro l' hl'
  cases hl'
  exact h.setLevel level

/-- An open log refuses as little as none. -/
theorem logging_alike (s : Session) (h : l.IsOpen) (level : Level) :
    (s.logging l level).Alike s.silent :=
  ⟨rfl, rfl, rfl, funext fun _ => (s.isOpen_logging h level).refusal? _⟩

/-- What is logged in a run is what the run would note without a log. -/
theorem journal_after_logging (h : l.IsOpen) (hd : s.treeDepth ≤ maxTreeDepth) (level : Level)
    (steps : List Step) :
    ((s.logging l level).after steps).journal =
      some ((l.setLevel level).extend (s.silent.allNotes steps)) := by
  rw [journal_after (s.isOpen_logging h level) hd, ((s.logging_alike h level).run hd steps).2]
  rfl

/-- **A log steers no answer, and its level is a filter.** A run of a session has the same answers
with an open log at a low level, at a high level and with no log, faults included. What is logged at
the low level is a sequence of entries, one for each note that is not below it, and what is logged at
the high level is the same but for the entries below it. -/
theorem run_of_level_le {grammar bound treeDepth log : Value}
    (hs : build grammar bound treeDepth log = .ok s) (h : l.IsOpen) (hl : low.rank ≤ high.rank)
    (steps : List Step) :
    ((s.logging l low).answers steps = s.silent.answers steps ∧
      (s.logging l high).answers steps = s.silent.answers steps) ∧
    ∃ es : List Log.Entry, es = (s.silent.allNotes steps).filterMap (l.setLevel low).written? ∧
      ((s.logging l low).after steps).journal =
        some { l.setLevel low with pieces := l.pieces ++ es.map .entry } ∧
      ((s.logging l high).after steps).journal =
        some { l.setLevel high with
          pieces := l.pieces ++ (es.filter fun e => high.rank ≤ e.level.rank).map .entry } := by
  have hd := (treeDepth_of_build hs).2
  refine ⟨⟨((s.logging_alike h low).run hd steps).1, ((s.logging_alike h high).run hd steps).1⟩,
    _, rfl, journal_after_logging h hd low steps, ?_⟩
  have hentries : (l.setLevel high).written? = fun n =>
      ((l.setLevel low).written? n).filter fun e => high.rank ≤ e.level.rank :=
    funext (Log.written?_setLevel hl)
  rw [journal_after_logging h hd high steps, Log.extend, hentries, List.filter_filterMap]
  rfl

/-- Of nine entries on the way to a grammar, a tree and an analysis, the two warnings are left. -/
theorem run_of_level_le_detours :
    let s : Session := ⟨⟨{}, none⟩, 10, 3, none, none⟩
    let l : Log := { now := ⟨2024, 2, 29, 13, 5, 9, 78⟩ }
    build .absent (.int 10) (.int 3) .absent = .ok s ∧ l.IsOpen ∧
      Level.debug.rank ≤ Level.warn.rank ∧
      (s.logging l .warn).answers detours = s.silent.answers detours ∧
      ∃ es : List Log.Entry, es.length = 9 ∧
        (es.filter fun e => Level.warn.rank ≤ e.level.rank).length = 2 ∧
        ((s.logging l .warn).after detours).journal = some { l.setLevel .warn with
          pieces := .opening ::
            (es.filter fun e => Level.warn.rank ≤ e.level.rank).map .entry } := by
  intro s l
  have hs : build .absent (.int 10) (.int 3) .absent = .ok s := rfl
  have hopen : l.IsOpen := ⟨rfl, rfl, l.now, by decide +kernel⟩
  have hl : Level.debug.rank ≤ Level.warn.rank := by decide
  obtain ⟨⟨-, answers⟩, es, -, hlow, hhigh⟩ := run_of_level_le hs hopen hl detours
  have hcount : ((s.logging l .debug).after detours).journal.map (fun l => l.pieces.length) =
        some 10 ∧
      ((s.logging l .warn).after detours).journal.map (fun l => l.pieces.length) = some 3 := by
    decide +kernel
  rw [hlow, hhigh] at hcount
  refine ⟨hs, hopen, hl, answers, es, ?_, ?_, hhigh⟩
  · simpa [l] using hcount.1
  · simpa [l] using hcount.2

/-- Where the moment of the clock has no date, the level steers an answer: an edit fails if it is to
be noted, and is accepted if the level is too high for that or there is no log. -/
theorem run_of_level_le_undated :
    let s : Session := ⟨⟨{}, none⟩, 10, 3, none, none⟩
    let l : Log := { zone := ⟨3600 * 1000000, none⟩, now := ⟨9999, 12, 31, 23, 59, 59, 0⟩ }
    let steps : List Step := [.edit (.terminal (.text ['a']))]
    l.isEnded = false ∧ l.streamClosed = false ∧ Level.debug.rank ≤ Level.critical.rank ∧
      (s.logging l .debug).answers steps = [.error (.log .noDate)] ∧
      (s.logging l .critical).answers steps = [.ok (.accepted true)] ∧
      s.silent.answers steps = [.ok (.accepted true)] :=
  ⟨rfl, rfl, by decide, rfl, rfl, rfl⟩

end Session

end FormalGrammar
