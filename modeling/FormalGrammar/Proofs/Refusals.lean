import FormalGrammar.Proofs.Analysing
import FormalGrammar.Proofs.Verdicts

/-!
# Logs that refuse entries

A log refuses an entry if it has been ended, and also if the entry would have to be written and
there is no date for it or no stream (`Log.refusal?`). The message does not matter, and what was
written before does not either: a log refuses after an entry what it refused before.

An analysis answers unless the log refuses one of its notes. Each note is made where nothing holds
its failure back: the one on an invalid grammar outside of the attempt, the one on a failed attempt
in its handler. The notes in the attempt itself are of the lowest level, so a log that refuses one
of them refuses the note of the handler for the same reason.

Main statement: `Analysis.run_outcome`. A log that has been closed or detached keeps every analysis
from answering (`Analysis.run_detached`), and an open one keeps none.
-/

namespace FormalGrammar

/-! ## What a log refuses -/

/-- Why a log does not take an entry of some level, if it does not. -/
def Log.refusal? (l : Log) (level : Level) : Option Failure :=
  if l.isEnded then some .ended
  else if level.rank < l.level.rank then none
  else if (l.now.shift? l.zone.offset).isNone then some .noDate
  else if l.streamClosed then some .streamGone
  else none

namespace Log

variable {l : Log} {level : Level} {f : Failure}

/-- A log refuses an entry that it finds no time for, and one that it cannot append. -/
theorem refusal?_eq (l : Log) (level : Level) :
    l.refusal? level = match l.entryTime level with
      | .error f => some f
      | .ok none => none
      | .ok (some _) => if l.streamClosed then some .streamGone else none := by
  unfold refusal? entryTime
  split
  · rfl
  · split
    · rfl
    · cases l.now.shift? l.zone.offset <;> rfl

theorem write_of_refusal (h : l.refusal? level = some f) (message : Text) :
    l.write level message = .error f := by
  rw [refusal?_eq] at h
  cases he : l.entryTime level with
  | error f' =>
    simp only [he, Option.some.injEq] at h
    simp only [write, he, h]
  | ok time =>
    cases time with
    | none => simp only [he, reduceCtorEq] at h
    | some time =>
      simp only [he] at h
      split at h
      · next hc => simp only [write, he, appendEntry, append, hc, ↓reduceIte, Option.some.inj h]
      · cases h

theorem write_of_taken (h : l.refusal? level = none) (message : Text) :
    ∃ l', l.write level message = .ok l' ∧ l'.refusal? = l.refusal? := by
  rw [refusal?_eq] at h
  cases he : l.entryTime level with
  | error f => simp only [he, reduceCtorEq] at h
  | ok time =>
    cases time with
    | none => exact ⟨l, by simp only [write, he], rfl⟩
    | some time =>
      simp only [he] at h
      split at h
      · cases h
      · next hc =>
        simp only [write, he, appendEntry, append, if_neg hc]
        exact ⟨_, rfl, rfl⟩

theorem refusal?_of_le (h : l.refusal? level = some f) {level' : Level}
    (hl : level.rank ≤ level'.rank) : l.refusal? level' = some f := by
  have hw : l.write level' [] = .error f := write_fails (write_of_refusal h []) hl []
  cases h' : l.refusal? level' with
  | some f' =>
    rw [write_of_refusal h', Except.error.injEq] at hw
    rw [hw]
  | none =>
    obtain ⟨l', ho, -⟩ := write_of_taken h' []
    rw [ho] at hw
    cases hw

theorem refusal?_of_isEnded (h : l.isEnded = true) (level : Level) :
    l.refusal? level = some .ended := if_pos h

theorem IsOpen.refusal? (h : l.IsOpen) (level : Level) : l.refusal? level = none := by
  obtain ⟨time, ht⟩ := h.dated
  simp [Log.refusal?, h.not_ended, h.stream_open, ht]

end Log

namespace Journal

/-- Why a note of some level is not taken, if it is not. -/
def refusal? (j : Journal) (level : Level) : Option Fault :=
  j.bind fun l => (l.refusal? level).map .log

variable {j : Journal} {level : Level} {f : Fault}

theorem note_of_refusal (h : j.refusal? level = some f) (message : Text) :
    j.note level message = .error f := by
  cases j with
  | none => cases h
  | some l =>
    obtain ⟨f', hf, rfl⟩ := Option.map_eq_some_iff.mp h
    simp only [note, Log.write_of_refusal hf]

theorem note_of_taken (h : j.refusal? level = none) (message : Text) :
    ∃ j', j.note level message = .ok j' ∧ j'.refusal? = j.refusal? := by
  cases j with
  | none => exact ⟨none, rfl, rfl⟩
  | some l =>
    obtain ⟨l', hw, hl⟩ := Log.write_of_taken (Option.map_eq_none_iff.mp h) message
    refine ⟨some l', by simp only [note, hw], ?_⟩
    funext level'
    simp only [refusal?, Option.bind_some, hl]

/-- A note is refused, or it is taken and changes nothing in what is refused. -/
theorem note_outcome (j : Journal) (level : Level) (message : Text) :
    (∃ f, j.refusal? level = some f ∧ j.note level message = .error f) ∨
      ∃ j', j.refusal? level = none ∧ j.note level message = .ok j' ∧
        j'.refusal? = j.refusal? := by
  cases hr : j.refusal? level with
  | some f => exact .inl ⟨f, rfl, note_of_refusal hr message⟩
  | none =>
    obtain ⟨j', hn, hj⟩ := note_of_taken hr message
    exact .inr ⟨j', rfl, hn, hj⟩

/-- Where the same is refused, a note fails alike or is taken alike. -/
theorem note_congr {j j' : Journal} (hj : j.refusal? = j'.refusal?) (level : Level)
    (message : Text) :
    (∃ f, j.note level message = .error f ∧ j'.note level message = .error f) ∨
      ∃ k k', j.note level message = .ok k ∧ j'.note level message = .ok k' := by
  obtain ⟨f, hr, hn⟩ | ⟨k, hr, hn, -⟩ := j.note_outcome level message
  · exact .inl ⟨f, hn, note_of_refusal (hj ▸ hr) message⟩
  · obtain ⟨k', hn', -⟩ := note_of_taken (hj ▸ hr) message
    exact .inr ⟨k, k', hn, hn'⟩

theorem refusal?_of_le (h : j.refusal? level = some f) {level' : Level}
    (hl : level.rank ≤ level'.rank) : j.refusal? level' = some f := by
  cases j with
  | none => cases h
  | some l =>
    obtain ⟨f', hf, rfl⟩ := Option.map_eq_some_iff.mp h
    exact Option.map_eq_some_iff.mpr ⟨f', Log.refusal?_of_le hf hl, rfl⟩

theorem IsOpen.refusal? (h : j.IsOpen) (level : Level) : j.refusal? level = none := by
  cases j with
  | none => rfl
  | some l => exact Option.map_eq_none_iff.mpr ((h l rfl).refusal? level)

end Journal

/-! ## Analyses -/

namespace Analysis

/-- The levels at which an analysis makes notes. -/
def noted (b : RuleBook) (bound : Nat) (word : Text) : List Level :=
  if b.grammar.isValid then
    match search b bound word with
    | .ok _ => [.debug]
    | .error _ => [.debug, .error]
  else [.warn]

/-- What an analysis answers if its notes are taken. -/
def answer (b : RuleBook) (bound : Nat) (word : Text) : Result :=
  if b.grammar.isValid then
    match search b bound word with
    | .ok r => r
    | .error f => .ofFault word f
  else .ofInvalid word

section

variable {b : RuleBook} {bound : Nat} {word : Text} {j : Journal}

theorem run_of_taken (h : ∀ level ∈ noted b bound word, j.refusal? level = none) :
    ∃ j', run b bound word j = (.ok (answer b bound word), j') ∧ j'.refusal? = j.refusal? := by
  cases hv : b.grammar.isValid with
  | false =>
    have hw : j.refusal? .warn = none := h _ (by simp [noted, hv])
    obtain ⟨j', hn, hj⟩ := Journal.note_of_taken hw (skipped word)
    exact ⟨j', by simp [run, answer, hv, hn], hj⟩
  | true =>
    cases hs : search b bound word with
    | ok r =>
      have hd : j.refusal? .debug = none := h _ (by simp [noted, hv, hs])
      obtain ⟨j₁, hb, hj₁⟩ := Journal.note_of_taken hd (begun word bound)
      obtain ⟨j₂, hf, hj₂⟩ := Journal.note_of_taken (hj₁ ▸ hd) (finished word r)
      exact ⟨j₂, by simp [run, attempt, answer, hv, hs, hb, hf], hj₂.trans hj₁⟩
    | error f =>
      have hd : j.refusal? .debug = none := h _ (by simp [noted, hv, hs])
      have he : j.refusal? .error = none := h _ (by simp [noted, hv, hs])
      obtain ⟨j₁, hb, hj₁⟩ := Journal.note_of_taken hd (begun word bound)
      obtain ⟨j₂, hf, hj₂⟩ := Journal.note_of_taken (hj₁ ▸ he) (failed word f)
      exact ⟨j₂, by simp [run, attempt, answer, hv, hs, hb, hf], hj₂.trans hj₁⟩

theorem fst_run_of_taken (h : ∀ level ∈ noted b bound word, j.refusal? level = none) :
    (run b bound word j).1 = .ok (answer b bound word) := by
  obtain ⟨j', hr, -⟩ := run_of_taken h
  rw [hr]

/-- The refusal of the first note in an attempt is also the one in its handler. -/
theorem run_of_refused_debug (hv : b.grammar.isValid = true) {f : Fault}
    (h : j.refusal? .debug = some f) : run b bound word j = (.error f, j) := by
  have he : j.refusal? .error = some f := Journal.refusal?_of_le h (by decide)
  simp [run, attempt, hv, Journal.note_of_refusal h, Journal.note_of_refusal he]

theorem run_of_refused {level : Level} (hl : level ∈ noted b bound word) {f : Fault}
    (h : j.refusal? level = some f) :
    ∃ j', run b bound word j = (.error f, j') ∧ j'.refusal? = j.refusal? := by
  cases hv : b.grammar.isValid with
  | false =>
    obtain rfl : level = .warn := by simpa [noted, hv] using hl
    exact ⟨j, by simp [run, hv, Journal.note_of_refusal h], rfl⟩
  | true =>
    cases hd : j.refusal? .debug with
    | some f' =>
      have hf : j.refusal? level = some f' :=
        Journal.refusal?_of_le hd (by cases level <;> decide)
      obtain rfl : f' = f := Option.some.inj (hf.symm.trans h)
      exact ⟨j, run_of_refused_debug hv hd, rfl⟩
    | none =>
      -- the refused note is the one in the handler, and the search has failed
      cases hs : search b bound word with
      | ok r =>
        obtain rfl : level = .debug := by simpa [noted, hv, hs] using hl
        rw [hd] at h
        cases h
      | error f' =>
        obtain rfl | rfl : level = .debug ∨ level = .error := by simpa [noted, hv, hs] using hl
        · rw [hd] at h
          cases h
        · obtain ⟨j₁, hb, hj₁⟩ := Journal.note_of_taken hd (begun word bound)
          have he : j₁.refusal? .error = some f := hj₁ ▸ h
          exact ⟨j₁, by simp [run, attempt, hv, hs, hb, Journal.note_of_refusal he], hj₁⟩

theorem fst_run_of_refused {level : Level} (hl : level ∈ noted b bound word) {f : Fault}
    (h : j.refusal? level = some f) : (run b bound word j).1 = .error f := by
  obtain ⟨j', hr, -⟩ := run_of_refused hl h
  rw [hr]

/-- Either every note of an analysis is taken, or one is refused. -/
theorem taken_or_refused (b : RuleBook) (bound : Nat) (word : Text) (j : Journal) :
    (∀ level ∈ noted b bound word, j.refusal? level = none) ∨
      ∃ level ∈ noted b bound word, ∃ f, j.refusal? level = some f := by
  by_cases h : ∀ level ∈ noted b bound word, j.refusal? level = none
  · exact .inl h
  · push Not at h
    obtain ⟨level, hl, hf⟩ := h
    exact .inr ⟨level, hl, Option.ne_none_iff_exists'.mp hf⟩

/-- An analysis changes nothing in what the log refuses. -/
theorem refusal?_run (b : RuleBook) (bound : Nat) (word : Text) (j : Journal) :
    (run b bound word j).2.refusal? = j.refusal? := by
  obtain h | ⟨level, hl, f, h⟩ := taken_or_refused b bound word j
  · obtain ⟨j', hr, hj⟩ := run_of_taken h
    rw [hr, hj]
  · obtain ⟨j', hr, hj⟩ := run_of_refused hl h
    rw [hr, hj]

/-- What an analysis answers depends on no more of the log than what it refuses. -/
theorem run_congr (b : RuleBook) (bound : Nat) (word : Text) {j j' : Journal}
    (hj : j.refusal? = j'.refusal?) : (run b bound word j).1 = (run b bound word j').1 := by
  obtain h | ⟨level, hl, f, h⟩ := taken_or_refused b bound word j
  · rw [fst_run_of_taken h, fst_run_of_taken (hj ▸ h)]
  · rw [fst_run_of_refused hl h, fst_run_of_refused hl (hj ▸ h)]

/-- What goes for the text of a word goes for the word, which may have no text. -/
theorem refusal?_runOn (b : RuleBook) (bound : Nat) (word : Value) (j : Journal) :
    (runOn b bound word j).2.refusal? = j.refusal? := by
  unfold runOn
  split
  · rfl
  · exact refusal?_run b bound _ j

theorem runOn_congr (b : RuleBook) (bound : Nat) (word : Value) {j j' : Journal}
    (hj : j.refusal? = j'.refusal?) : (runOn b bound word j).1 = (runOn b bound word j').1 := by
  unfold runOn
  split
  · rfl
  · exact run_congr b bound _ hj

theorem exists_mem_noted (b : RuleBook) (bound : Nat) (word : Text) :
    ∃ level, level ∈ noted b bound word := by
  unfold noted
  split
  · split
    · exact ⟨_, List.mem_cons_self⟩
    · exact ⟨_, List.mem_cons_self⟩
  · exact ⟨_, List.mem_cons_self⟩

theorem run_of_isEnded {l : Log} (h : l.isEnded = true) :
    (run b bound word (some l)).1 = .error (.log .ended) := by
  obtain ⟨level, hl⟩ := exists_mem_noted b bound word
  have hr : Journal.refusal? (some l) level = some (.log .ended) := by
    simp [Journal.refusal?, Log.refusal?_of_isEnded h]
  exact fst_run_of_refused hl hr

theorem answer_of_search_error (hv : b.grammar.isValid = true) {f : Fault}
    (hs : search b bound word = .error f) : answer b bound word = .ofFault word f := by
  simp [answer, hv, hs]

end

/-- **An analysis answers unless the log refuses one of its notes**, and then it fails for the
reason of the log. So it answers if there is no log or an open one, and does not if the log has been
closed or detached. A fault of the search is no such failure: it is kept in the answer, with the
verdict `error`. -/
theorem run_outcome (b : RuleBook) (bound : Nat) (word : Text) (j : Journal) :
    ((∀ level ∈ noted b bound word, j.refusal? level = none) →
        (run b bound word j).1 = .ok (answer b bound word)) ∧
      (∀ level ∈ noted b bound word, ∀ f, j.refusal? level = some f →
        (run b bound word j).1 = .error f) ∧
      (j.IsOpen → (run b bound word j).1 = .ok (answer b bound word)) ∧
      (∀ l, j = some l → l.isEnded = true → (run b bound word j).1 = .error (.log .ended)) ∧
      ∀ f r, b.grammar.isValid = true → search b bound word = .error f →
        (run b bound word j).1 = .ok r → r.verdict = .error ∧ r.error = .fault f := by
  refine ⟨fst_run_of_taken, fun level hl f => fst_run_of_refused hl,
    fun h => fst_run_of_taken fun level _ => h.refusal? level, ?_, ?_⟩
  · rintro l rfl h
    exact run_of_isEnded h
  · intro f r hv hs hr
    obtain h | ⟨level, hl, f', h⟩ := taken_or_refused b bound word j
    · rw [fst_run_of_taken h, answer_of_search_error hv hs] at hr
      cases hr
      exact ⟨rfl, rfl⟩
    · rw [fst_run_of_refused hl h] at hr
      cases hr

/-- A rule book in which no rule can be looked up. -/
def unavailable : RuleBook :=
  ⟨Grammar.doubling, some (.raised "RuntimeError" "productions unavailable".toList)⟩

theorem search_unavailable : search unavailable 10 ['a'] =
    .error (.raised "RuntimeError" "productions unavailable".toList) := by
  have hc : (Grammar.doubling.search ['a'] 10).consultsRules = true := by decide
  simp only [search, unavailable, hc, ↓reduceIte]

/-- Without a log, the fault of the look-ups is in the answer. With a log that drops what is noted
on the search and has lost its stream, the note on the fault is refused; with one that has been
ended, so is the first note. -/
theorem run_outcome_unavailable :
    (∃ r, (run unavailable 10 ['a'] none).1 = .ok r ∧ r.verdict = .error ∧
      r.error = .fault (.raised "RuntimeError" "productions unavailable".toList)) ∧
    (∃ l : Log, l.refusal? .debug = none ∧
      (run unavailable 10 ['a'] (some l)).1 = .error (.log .streamGone)) ∧
    ∃ l : Log, l.isEnded = true ∧
      (run unavailable 10 ['a'] (some l)).1 = .error (.log .ended) := by
  have hv : unavailable.grammar.isValid = true := by decide
  obtain ⟨-, -, answers, -, fault⟩ := run_outcome unavailable 10 ['a'] none
  have ha := answers Journal.isOpen_none
  let lost : Log :=
    { now := ⟨2024, 2, 29, 13, 5, 9, 78⟩, level := .error, streamClosed := true }
  obtain ⟨-, refused, -, -, -⟩ := run_outcome unavailable 10 ['a'] (some lost)
  have he : Level.error ∈ noted unavailable 10 ['a'] := by
    simp [noted, hv, search_unavailable]
  have hr : Journal.refusal? (some lost) .error = some (.log .streamGone) := by decide +kernel
  let ended : Log := { now := ⟨2024, 2, 29, 13, 5, 9, 78⟩, isEnded := true }
  obtain ⟨-, -, -, fails, -⟩ := run_outcome unavailable 10 ['a'] (some ended)
  exact ⟨⟨_, ha, fault _ _ hv search_unavailable ha⟩, ⟨lost, rfl, refused _ he _ hr⟩,
    ended, rfl, fails _ rfl rfl⟩

/-- A log can be detached, and then no word is analysed with it, though the grammar is valid. -/
theorem run_detached :
    ∃ l, Log.detach { now := ⟨2024, 2, 29, 13, 5, 9, 78⟩ } = .ok l ∧
      Grammar.doubling.isValid = true ∧
      (run { grammar := Grammar.doubling } 10 ['a'] (some l)).1 = .error (.log .ended) ∧
      ¬ ∃ r, (run { grammar := Grammar.doubling } 10 ['a'] (some l)).1 = .ok r := by
  have hr : ∀ l : Log, l.isEnded = true →
      (run { grammar := Grammar.doubling } 10 ['a'] (some l)).1 = .error (.log .ended) :=
    fun _ => run_of_isEnded
  refine ⟨_, rfl, by decide, hr _ rfl, ?_⟩
  rintro ⟨r, h⟩
  rw [hr _ rfl] at h
  cases h

end Analysis

end FormalGrammar
