import FormalGrammar.Analysis

/-!
# What an analysis answers

An analysis answers with the result of the search, unless the grammar is not valid or a
fault stops it. No fault does if the rules can be looked up and the log, if there is one, is
open. A log that fails leaves no answer: where it does not take a note on the search, it does
not take one on the failure either (`note_fails`).
-/

namespace FormalGrammar

/-! ## Open logs -/

/-- The log has not been ended, nor its stream closed, and its clock shows a date. -/
structure Log.IsOpen (l : Log) : Prop where
  not_ended : l.isEnded = false
  stream_open : l.streamClosed = false
  dated : ∃ time, l.now.shift? l.zone.offset = some time

/-- An entry that is not dropped has the time that every graver one has, or fails as those do. -/
theorem Log.entryTime_of_le {l : Log} {level level' : Level} (hl : level.rank ≤ level'.rank)
    (h : l.entryTime level ≠ .ok none) : l.entryTime level' = l.entryTime level := by
  unfold Log.entryTime at h ⊢
  split
  · rfl
  · next he =>
    rw [if_neg he] at h
    split at h
    · exact absurd rfl h
    · next hr =>
      have hr' : ¬ level'.rank < l.level.rank := by omega
      rw [if_neg hr, if_neg hr']

/-- What keeps an entry out of a log keeps out every graver one. -/
theorem Log.write_fails {l : Log} {level : Level} {message : Text} {f : Failure}
    (h : l.write level message = .error f) {level' : Level} (hl : level.rank ≤ level'.rank)
    (message' : Text) : l.write level' message' = .error f := by
  unfold Log.write at h ⊢
  split at h
  · next he =>
    cases h
    simp only [entryTime_of_le hl (by rw [he]; nofun), he]
  · cases h
  · next time he =>
    simp only [entryTime_of_le hl (by rw [he]; nofun), he, appendEntry, append] at h ⊢
    split at h
    · next hc => rw [if_pos hc, h]
    · cases h

/-- A log that has not been ended finds a time for an entry, if its clock shows a date. -/
theorem Log.entryTime_of_dated {l : Log} {time : Moment} (hn : l.isEnded = false)
    (ht : l.now.shift? l.zone.offset = some time) (level : Level) :
    l.entryTime level = .ok (if level.rank < l.level.rank then none else some time) := by
  have hn' : ¬ l.isEnded = true := by simp [hn]
  rw [entryTime, if_neg hn', ht]
  split <;> rfl

/-- **An open log takes every message**, and writes those that are not below its level. -/
theorem Log.write_of_open {l : Log} {time : Moment} (hn : l.isEnded = false)
    (hs : l.streamClosed = false) (ht : l.now.shift? l.zone.offset = some time) (level : Level)
    (message : Text) :
    l.write level message = .ok { l with
      pieces := l.pieces ++
        if level.rank < l.level.rank then []
        else [.entry ⟨time, l.zone, level, Text.trim message⟩] } := by
  have hs' : ¬ l.streamClosed = true := by simp [hs]
  rw [write, entryTime_of_dated hn ht]
  by_cases hl : level.rank < l.level.rank
  · simp [hl]
  · simp [hl, appendEntry, append, hs']

theorem Log.IsOpen.write {l : Log} (h : l.IsOpen) (level : Level) (message : Text) :
    ∃ l', l.write level message = .ok l' ∧ l'.IsOpen := by
  obtain ⟨time, ht⟩ := h.dated
  exact ⟨_, write_of_open h.not_ended h.stream_open ht level message,
    h.not_ended, h.stream_open, h.dated⟩

/-- There is no log, or it is open. -/
def Journal.IsOpen (j : Journal) : Prop := ∀ l, j = some l → l.IsOpen

theorem Journal.isOpen_none : Journal.IsOpen none := by
  intro l h
  cases h

theorem Journal.IsOpen.note {j : Journal} (h : j.IsOpen) (level : Level) (message : Text) :
    ∃ j', j.note level message = .ok j' ∧ j'.IsOpen := by
  cases j with
  | none => exact ⟨none, rfl, h⟩
  | some l =>
    obtain ⟨l', hw, ho⟩ := (h l rfl).write level message
    refine ⟨some l', by simp only [Journal.note, hw], fun l'' he => ?_⟩
    cases he
    exact ho

theorem Journal.note_fails {j : Journal} {level : Level} {message : Text} {f : Fault}
    (h : j.note level message = .error f) {level' : Level} (hl : level.rank ≤ level'.rank)
    (message' : Text) : j.note level' message' = .error f := by
  cases j with
  | none => cases h
  | some l =>
    cases hw : l.write level message with
    | ok l' => simp only [Journal.note, hw, reduceCtorEq] at h
    | error f' =>
      simp only [Journal.note, hw] at h
      simp only [Journal.note, Log.write_fails hw hl message', h]

/-! ## Results -/

/-- A valid grammar has a start symbol. -/
theorem Grammar.start_of_isValid {g : Grammar} (h : g.isValid = true) :
    ∃ s, g.start = some s := by
  simp only [Grammar.isValid, Bool.and_eq_true] at h
  exact Option.isSome_iff_exists.mp h.1.2

namespace Analysis

@[simp] theorem verdict_ofVisit (word start : Form) (v : Search.Visit) :
    (Result.ofVisit word start v).verdict = v.verdict := rfl

@[simp] theorem trace_ofVisit (word start : Form) (v : Search.Visit) :
    (Result.ofVisit word start v).trace = v.steps.map Search.Step.line := rfl

/-- With an open log, or none, the answer is the result of the search. -/
theorem run_of_isOpen {g : Grammar} (hv : g.isValid = true) (bound : Nat) (word : Text)
    {j : Journal} (hj : j.IsOpen) :
    (run { grammar := g } bound word j).1 =
      .ok (Result.ofVisit word g.startForm (g.search word bound)) := by
  obtain ⟨j', hb, hj'⟩ := hj.note .debug (begun word bound)
  obtain ⟨j'', hf, -⟩ := hj'.note .debug
    (finished word (Result.ofVisit word g.startForm (g.search word bound)))
  simp [run, attempt, search, hv, hb, hf]

/-- With an open log, or none, there is an answer, whatever the grammar and its look-ups. -/
theorem exists_run (b : RuleBook) (bound : Nat) (word : Text) {j : Journal} (hj : j.IsOpen) :
    ∃ r, (run b bound word j).1 = .ok r := by
  cases hv : b.grammar.isValid with
  | false =>
    obtain ⟨j', hw, -⟩ := hj.note .warn (skipped word)
    exact ⟨.ofInvalid word, by simp [run, hv, hw]⟩
  | true =>
    obtain ⟨j', hb, hj'⟩ := hj.note .debug (begun word bound)
    cases hs : search b bound word with
    | ok r =>
      obtain ⟨j'', hf, -⟩ := hj'.note .debug (finished word r)
      exact ⟨r, by simp [run, attempt, hv, hb, hs, hf]⟩
    | error f =>
      obtain ⟨j'', hf, -⟩ := hj'.note .error (failed word f)
      exact ⟨.ofFault word f, by simp [run, attempt, hv, hb, hs, hf]⟩

section

variable {b : RuleBook} {bound : Nat} {word : Text} {j : Journal} {r : Result}

/-- Whatever the log, an answer about a valid grammar is the result of the search. -/
theorem result_of_isValid {g : Grammar} (hv : g.isValid = true)
    (h : (run { grammar := g } bound word j).1 = .ok r) :
    r = Result.ofVisit word g.startForm (g.search word bound) := by
  have hd : Level.debug.rank ≤ Level.error.rank := by decide
  have hs : search { grammar := g } bound word =
      .ok (Result.ofVisit word g.startForm (g.search word bound)) := rfl
  simp only [run, hv, Bool.not_true, Bool.false_eq_true, ↓reduceIte] at h
  cases hb : j.note .debug (begun word bound) with
  | error f => simp [attempt, hb, Journal.note_fails hb hd] at h
  | ok j' =>
    cases hf : j'.note .debug
        (finished word (Result.ofVisit word g.startForm (g.search word bound))) with
    | error f => simp [attempt, hb, hs, hf, Journal.note_fails hf hd] at h
    | ok j'' =>
      simp only [attempt, hb, hs, hf, Except.ok.injEq] at h
      exact h.symm

theorem result_of_search (h : search b bound word = .ok r) :
    r = Result.ofVisit word b.grammar.startForm (b.grammar.search word bound) := by
  cases ho : b.outage with
  | none =>
    simp only [search, ho, Except.ok.injEq] at h
    exact h.symm
  | some f =>
    simp only [search, ho] at h
    split at h
    · cases h
    · exact (Except.ok.inj h).symm

theorem result_of_attempt (h : (attempt b bound word j).1 = .ok r) :
    r = Result.ofVisit word b.grammar.startForm (b.grammar.search word bound) := by
  unfold attempt at h
  split at h
  · cases h
  · cases hs : search b bound word with
    | error f => simp [hs] at h
    | ok r' =>
      simp only [hs] at h
      split at h
      · cases h
      · cases h
        exact result_of_search hs

/-- Whatever the rule book and the log, an answer is the result of the search, or it says that
the grammar is not valid or that a fault has stopped the search. -/
theorem result_of_run (h : (run b bound word j).1 = .ok r) :
    r = .ofInvalid word ∨ (∃ f, r = .ofFault word f) ∨
      r = Result.ofVisit word b.grammar.startForm (b.grammar.search word bound) := by
  unfold run at h
  split at h
  · split at h
    · cases h
    · exact .inl (Except.ok.inj h).symm
  · split at h
    · next r' _ ha =>
      cases h
      exact .inr (.inr (result_of_attempt (congrArg Prod.fst ha)))
    · next f _ _ =>
      split at h
      · cases h
      · exact .inr (.inl ⟨f, (Except.ok.inj h).symm⟩)

end

end Analysis

end FormalGrammar
