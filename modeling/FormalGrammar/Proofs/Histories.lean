import FormalGrammar.Proofs.Gains
import FormalGrammar.Proofs.Refusals
import FormalGrammar.Proofs.Reopening

/-!
# What a session remembers

Of all that has been done to a session, its later answers depend on the accepted edits alone: a
rejected edit, an analysis or a general tree leaves nothing behind but entries in the log and, if it
is an analysis, its result. What has been written to a log does not change what it refuses, so two
sessions that differ in entries and results only are alike (`Session.Alike`), which is what every
step respects (`Alike.step_eq`, `Alike.after_step`) and what a step other than an accepted edit keeps
(`step_alike`). Runs follow by induction.

Main statement: `Session.step_after_acceptedEdits`.
-/

namespace FormalGrammar

/-! ## Explorations and logs -/

/-- A note that may fail to be put together is not made or changes nothing in what the log refuses. -/
theorem Journal.noteMade_outcome (j : Journal) (level : Level) (message : Except Fault Text) :
    (∃ f, j.noteMade level message = .error f) ∨
      ∃ k, j.noteMade level message = .ok k ∧ k.refusal? = j.refusal? := by
  cases message with
  | error f =>
    cases j with
    | none => exact .inr ⟨none, rfl, rfl⟩
    | some l => exact .inl ⟨f, rfl⟩
  | ok message =>
    rw [noteMade_ok]
    obtain ⟨f, -, hn⟩ | ⟨k, -, hn, hk⟩ := j.note_outcome level message
    · exact .inl ⟨f, hn⟩
    · exact .inr ⟨k, hn, hk⟩

namespace Exploration

/-- An exploration fails before it notes anything, or it has a tree and makes one note, for which
there are words if the number of levels has a numeral. -/
theorem run_cases (b : RuleBook) (levels : Int) :
    (∃ f, ∀ j, run b levels j = (.error f, j)) ∨
      ∃ level message t, (Numeral.Integer.IsShort levels → ∃ m, message = .ok m) ∧
        (∀ (j : Journal) f, j.noteMade level message = .error f → run b levels j = (.error f, j)) ∧
        ∀ (j k : Journal), j.noteMade level message = .ok k → run b levels j = (.ok t, k) := by
  cases hv : b.grammar.isValid with
  | false =>
    refine .inr ⟨.warn, .ok "General tree requested for an invalid grammar".toList, invalidTree,
      fun _ => ⟨_, rfl⟩, fun j f hn => ?_, fun j k hn => ?_⟩
    · rw [Journal.noteMade_ok] at hn
      simp only [run, hv, Bool.not_false, ↓reduceIte, hn]
    · rw [Journal.noteMade_ok] at hn
      simp only [run, hv, Bool.not_false, ↓reduceIte, hn]
  | true =>
    cases ho : if 0 < levels then b.outage else none with
    | some f =>
      refine .inl ⟨f, fun j => ?_⟩
      simp only [run, hv, ho, Bool.not_true, Bool.false_eq_true, ↓reduceIte]
    | none =>
      refine .inr ⟨.debug, generated levels (b.grammar.generalTree levels.toNat),
        b.grammar.generalTree levels.toNat, fun hl => exists_generated hl _, fun j f hn => ?_,
        fun j k hn => ?_⟩
      · simp only [run, hv, ho, Bool.not_true, Bool.false_eq_true, ↓reduceIte, hn]
      · simp only [run, hv, ho, Bool.not_true, Bool.false_eq_true, ↓reduceIte, hn]

/-- An exploration changes nothing in what the log refuses. -/
theorem refusal?_run (b : RuleBook) (levels : Int) (j : Journal) :
    (run b levels j).2.refusal? = j.refusal? := by
  obtain ⟨f, hr⟩ | ⟨level, message, t, -, refused, taken⟩ := run_cases b levels
  · rw [hr]
  · obtain ⟨f, hn⟩ | ⟨k, hn, hk⟩ := j.noteMade_outcome level message
    · rw [refused j f hn]
    · rw [taken j k hn, hk]

/-- The tree depends on no more of the log than what it refuses, if the number of levels has a
numeral: with no log at all it needs none. -/
theorem run_congr (b : RuleBook) {levels : Int} (hl : Numeral.Integer.IsShort levels)
    {j j' : Journal} (hj : j.refusal? = j'.refusal?) :
    (run b levels j).1 = (run b levels j').1 := by
  obtain ⟨f, hr⟩ | ⟨level, message, t, hm, refused, taken⟩ := run_cases b levels
  · rw [hr, hr]
  · obtain ⟨m, rfl⟩ := hm hl
    simp only [Journal.noteMade_ok] at refused taken
    obtain ⟨f, hn, hn'⟩ | ⟨k, k', hn, hn'⟩ := Journal.note_congr hj level m
    · rw [refused j f hn, refused j' f hn']
    · rw [taken j k hn, taken j' k' hn']

end Exploration

namespace Session

/-! ## Runs -/

inductive Step where
  | edit (e : Edit)
  | analyze (word : Value)
  | generalTree (depth : Value)

/-- What a step answers unless it fails. -/
inductive Answer where
  | accepted (yes : Bool)
  | result (r : Result)
  | tree (t : Tree)

def step (s : Session) : Step → Except Fault Answer × Session
  | .edit e => ((s.edit e).1.map .accepted, (s.edit e).2)
  | .analyze word => ((s.analyze word).1.map .result, (s.analyze word).2)
  | .generalTree depth => ((s.generalTree depth).1.map .tree, (s.generalTree depth).2)

/-- The session after steps, some of which may fail. -/
def after (s : Session) : List Step → Session
  | [] => s
  | x :: steps => (s.step x).2.after steps

/-- Whether a step is an edit that the grammar accepts. -/
def accepts (s : Session) : Step → Bool
  | .edit e => (s.book.edit e).1
  | _ => false

/-- The accepted edits of a run: its steps without rejected edits, analyses and general trees. -/
def acceptedEdits (s : Session) : List Step → List Step
  | [] => []
  | x :: steps =>
    if s.accepts x then x :: (s.step x).2.acceptedEdits steps
    else (s.step x).2.acceptedEdits steps

/-- A run from which some steps have been left out, but no accepted edit. -/
inductive Thinned : Session → List Step → List Step → Prop
  | nil (s : Session) : s.Thinned [] []
  | keep {s : Session} (x : Step) {steps kept : List Step} (h : (s.step x).2.Thinned steps kept) :
      s.Thinned (x :: steps) (x :: kept)
  | leave {s : Session} {x : Step} {steps kept : List Step} (hx : s.accepts x = false)
      (h : (s.step x).2.Thinned steps kept) : s.Thinned (x :: steps) kept

theorem thinned_acceptedEdits (s : Session) (steps : List Step) :
    s.Thinned steps (s.acceptedEdits steps) := by
  induction steps generalizing s with
  | nil => exact .nil s
  | cons x steps ih =>
    cases ha : s.accepts x with
    | true =>
      rw [acceptedEdits, if_pos ha]
      exact .keep x (ih _)
    | false =>
      rw [acceptedEdits, if_neg (by simp [ha])]
      exact .leave ha (ih _)

theorem after_append (s : Session) (xs ys : List Step) :
    s.after (xs ++ ys) = (s.after xs).after ys := by
  induction xs generalizing s with
  | nil => rfl
  | cons x xs ih => exact ih _

/-- The number of levels of a general tree: the session's own if none is asked for. -/
def levelsFor (s : Session) : Value → Except Fault Nat
  | .absent => .ok s.treeDepth
  | v => readTreeDepth v

theorem generalTree_of_levelsFor (s : Session) (depth : Value) :
    s.generalTree depth =
      match s.levelsFor depth with
      | .error f => (.error f, s)
      | .ok levels => ((Exploration.run s.book levels s.journal).1,
          { s with journal := (Exploration.run s.book levels s.journal).2 }) := rfl

/-- The number of levels of a general tree has a numeral. -/
theorem isShort_levelsFor {s : Session} {depth : Value} {levels : Nat}
    (hd : s.treeDepth ≤ maxTreeDepth) (h : s.levelsFor depth = .ok levels) :
    Numeral.Integer.IsShort levels := by
  refine isShort_treeDepth ?_
  unfold levelsFor at h
  split at h
  · cases h
    exact hd
  · exact (readTreeDepth_eq_ok h).2

/-! ## Sessions that are alike -/

/-- The sessions differ at most in what their logs have written and in the latest result. -/
structure Alike (s t : Session) : Prop where
  book : s.book = t.book
  bound : s.bound = t.bound
  treeDepth : s.treeDepth = t.treeDepth
  refusals : s.journal.refusal? = t.journal.refusal?

/-- What a step does to a session, but for the log and the latest result. -/
def edited (s : Session) : Step → Session
  | .edit e => { s with book := (s.book.edit e).2 }
  | _ => s

namespace Alike

variable {s t u : Session}

theorem refl (s : Session) : s.Alike s := ⟨rfl, rfl, rfl, rfl⟩

theorem symm (h : s.Alike t) : t.Alike s :=
  ⟨h.book.symm, h.bound.symm, h.treeDepth.symm, h.refusals.symm⟩

theorem trans (h : s.Alike t) (h' : t.Alike u) : s.Alike u :=
  ⟨h.book.trans h'.book, h.bound.trans h'.bound, h.treeDepth.trans h'.treeDepth,
    h.refusals.trans h'.refusals⟩

theorem edited (h : s.Alike t) (x : Step) : (s.edited x).Alike (t.edited x) := by
  cases x with
  | edit e => exact ⟨by simp only [Session.edited, h.book], h.bound, h.treeDepth, h.refusals⟩
  | analyze word => exact h
  | generalTree depth => exact h

end Alike

theorem edit_alike (s : Session) (e : Edit) :
    (s.edit e).2.Alike { s with book := (s.book.edit e).2 } := by
  simp only [Session.edit]
  cases editNote (s.book.edit e).1 e with
  | error f => exact .refl _
  | ok note =>
    obtain ⟨f, -, hn⟩ | ⟨j', -, hn, hj⟩ := s.journal.note_outcome note.1 note.2
    · simp only [hn]
      exact .refl _
    · simp only [hn]
      exact ⟨rfl, rfl, rfl, hj⟩

theorem analyze_alike (s : Session) (word : Value) : (s.analyze word).2.Alike s := by
  have hj := Analysis.refusal?_runOn s.book s.bound word s.journal
  unfold Session.analyze
  split
  · next hr => exact ⟨rfl, rfl, rfl, by rwa [hr] at hj⟩
  · next hr => exact ⟨rfl, rfl, rfl, by rwa [hr] at hj⟩

theorem generalTree_alike (s : Session) (depth : Value) : (s.generalTree depth).2.Alike s := by
  simp only [Session.generalTree]
  split
  · exact .refl s
  · exact ⟨rfl, rfl, rfl, Exploration.refusal?_run _ _ _⟩

/-- Whatever a step is, it only edits, but for the log and the latest result. -/
theorem step_alike_edited (s : Session) (x : Step) : (s.step x).2.Alike (s.edited x) := by
  cases x with
  | edit e => exact s.edit_alike e
  | analyze word => exact s.analyze_alike word
  | generalTree depth => exact s.generalTree_alike depth

theorem edited_of_not_accepts {s : Session} {x : Step} (h : s.accepts x = false) :
    s.edited x = s := by
  cases x with
  | edit e =>
    have hg : (s.book.edit e).2 = s.book := by
      have hr : s.book.grammar.edit e = (false, (s.book.grammar.edit e).2) :=
        Prod.ext h rfl
      have hs : (s.book.grammar.edit e).2 = s.book.grammar := Grammar.edit_rejected hr
      simp only [RuleBook.edit, hs]
    simp only [edited, hg]
  | analyze word => rfl
  | generalTree depth => rfl

/-- **A step other than an accepted edit leaves the session alike.** -/
theorem step_alike {s : Session} {x : Step} (h : s.accepts x = false) : (s.step x).2.Alike s := by
  have hs := s.step_alike_edited x
  rwa [edited_of_not_accepts h] at hs

namespace Alike

variable {s t : Session}

theorem edit_eq (h : s.Alike t) (e : Edit) : (s.edit e).1 = (t.edit e).1 := by
  simp only [Session.edit, h.book]
  cases editNote (t.book.edit e).1 e with
  | error f => rfl
  | ok note =>
    obtain ⟨f, hn, hn'⟩ | ⟨k, k', hn, hn'⟩ := Journal.note_congr h.refusals note.1 note.2
    · simp only [hn, hn']
    · simp only [hn, hn']

theorem analyze_eq (h : s.Alike t) (word : Value) : (s.analyze word).1 = (t.analyze word).1 := by
  have answer (s : Session) :
      (s.analyze word).1 = (Analysis.runOn s.book s.bound word s.journal).1 := by
    unfold Session.analyze
    split
    · next hr => rw [hr]
    · next hr => rw [hr]
  rw [answer s, answer t, h.book, h.bound, Analysis.runOn_congr _ _ _ h.refusals]

theorem levelsFor_eq (h : s.Alike t) (depth : Value) : s.levelsFor depth = t.levelsFor depth := by
  cases depth with
  | absent => exact congrArg Except.ok h.treeDepth
  | _ => rfl

/-- What a step does to sessions that are alike is alike, whatever they answer. -/
theorem after_step (h : s.Alike t) (x : Step) : (s.step x).2.Alike (t.step x).2 :=
  (s.step_alike_edited x).trans ((h.edited x).trans (t.step_alike_edited x).symm)

theorem generalTree_eq (h : s.Alike t) (hd : s.treeDepth ≤ maxTreeDepth) (depth : Value) :
    (s.generalTree depth).1 = (t.generalTree depth).1 := by
  rw [generalTree_of_levelsFor, generalTree_of_levelsFor, ← h.levelsFor_eq]
  cases hl : s.levelsFor depth with
  | error f => rfl
  | ok levels =>
    simp only [h.book]
    exact Exploration.run_congr t.book (isShort_levelsFor hd hl) h.refusals

/-- **Sessions that are alike answer alike.** -/
theorem step_eq (h : s.Alike t) (hd : s.treeDepth ≤ maxTreeDepth) (x : Step) :
    (s.step x).1 = (t.step x).1 := by
  cases x with
  | edit e => simp only [Session.step, h.edit_eq]
  | analyze word => simp only [Session.step, h.analyze_eq]
  | generalTree depth => simp only [Session.step, h.generalTree_eq hd]

/-- **A run ends alike if steps are left out of it that are no accepted edits.** -/
theorem after_thinned {steps kept : List Step} (h : s.Alike t) (hk : s.Thinned steps kept) :
    (s.after steps).Alike (t.after kept) := by
  induction hk generalizing t with
  | nil s => exact h
  | keep x _ ih => exact ih (h.after_step x)
  | leave hx _ ih => exact ih ((step_alike hx).trans h)

end Alike

/-! ## The latest result -/

section

variable {s : Session} {steps before later : List Step} {word : Value}

theorem last_step {x : Step} (h : ∀ word, x ≠ .analyze word) : (s.step x).2.last = s.last := by
  cases x with
  | edit e =>
    obtain ⟨journal, he⟩ := s.edit_eq e
    simp only [step, he]
  | analyze word => exact absurd rfl (h word)
  | generalTree depth =>
    obtain ⟨journal, he⟩ := s.generalTree_eq depth
    simp only [step, he]

theorem last_step_analyze {r : Result} (h : (s.step (.analyze word)).1 = .ok (.result r)) :
    (s.step (.analyze word)).2.last = some r := by
  simp only [step, Session.analyze] at h ⊢
  split at h
  · cases h
  · cases h
    rfl

theorem last_step_analyze_error {f : Fault} (h : (s.step (.analyze word)).1 = .error f) :
    (s.step (.analyze word)).2.last = s.last := by
  simp only [step, Session.analyze] at h ⊢
  split at h
  · rfl
  · cases h

theorem last_after (h : ∀ word, .analyze word ∉ steps) : (s.after steps).last = s.last := by
  induction steps generalizing s with
  | nil => rfl
  | cons x steps ih =>
    have hx : ∀ word, x ≠ .analyze word := fun word he => h word (he ▸ List.mem_cons_self)
    rw [after, ih fun word hm => h word (List.mem_cons_of_mem x hm), last_step hx]

/-- Only the latest analysis counts. -/
theorem last_after_analyze (h : ∀ word, .analyze word ∉ later) :
    (s.after (before ++ .analyze word :: later)).last =
      ((s.after before).step (.analyze word)).2.last := by
  rw [after_append, after, last_after h]

theorem last_of_build {grammar bound treeDepth log : Value}
    (h : build grammar bound treeDepth log = .ok s) : s.last = none := by
  obtain ⟨_, _, _, _, _, -, -, -, -, rfl⟩ := build_eq_ok h
  rfl

theorem treeDepth_step (s : Session) (x : Step) : (s.step x).2.treeDepth = s.treeDepth := by
  have hx : (s.edited x).treeDepth = s.treeDepth := by cases x <;> rfl
  rw [(s.step_alike_edited x).treeDepth, hx]

theorem treeDepth_after (s : Session) (steps : List Step) :
    (s.after steps).treeDepth = s.treeDepth := by
  induction steps generalizing s with
  | nil => rfl
  | cons x steps ih => rw [after, ih, treeDepth_step]

theorem refusal?_after (s : Session) (steps : List Step) :
    (s.after steps).journal.refusal? = s.journal.refusal? := by
  induction steps generalizing s with
  | nil => rfl
  | cons x steps ih =>
    have hx : (s.edited x).journal = s.journal := by cases x <;> rfl
    rw [after, ih, (s.step_alike_edited x).refusals, hx]

/-- With an open log, or none, every analysis of a word with a text answers. -/
theorem exists_step_analyze (h : s.journal.IsOpen) (steps : List Step) (hw : word.HasText) :
    ∃ r, ((s.after steps).step (.analyze word)).1 = .ok (.result r) := by
  obtain ⟨t, ht⟩ := hw
  have taken : ∀ level ∈ Analysis.noted (s.after steps).book (s.after steps).bound t,
      (s.after steps).journal.refusal? level = none := by
    intro level _
    rw [refusal?_after, h.refusal?]
  obtain ⟨journal, hr, -⟩ := Analysis.run_of_taken taken
  refine ⟨Analysis.answer (s.after steps).book (s.after steps).bound t, ?_⟩
  simp only [step, Session.analyze, Analysis.runOn, ht, hr, Except.map]

/-! ## Steps without words -/

/-- An analysis of a word without a text fails for that, and leaves the session as it was. -/
theorem step_analyze_of_error {f : Fault} (s : Session) (h : word.display = .error f) :
    s.step (.analyze word) = (.error f, s) := by
  simp only [step, Session.analyze, Analysis.runOn, h, Except.map]

/-- An edit that cannot be put into words fails for that, and leaves the session as it was. -/
theorem step_edit_of_error {e : Edit} {f : Fault} (s : Session) (h : e.text = .error f) :
    s.step (.edit e) = (.error f, s) := by
  have hrejected : s.book.grammar.edit e = (false, s.book.grammar) := by
    cases ho : e.outcome? s.book.grammar with
    | none => simp only [Grammar.edit, ho]
    | some g =>
      obtain ⟨t, ht⟩ := (Edit.exists_words (Edit.hasText_of_outcome? ho)).1
      rw [h] at ht
      cases ht
  have hnote : editNote false e = .error f := by simp only [editNote, h, bind, Except.bind]
  simp only [step, Session.edit, RuleBook.edit, hrejected, hnote, Except.map]

/-- An edit that is answered is answered by whether it is accepted. -/
theorem accepts_of_step {e : Edit} {yes : Bool} (h : (s.step (.edit e)).1 = .ok (.accepted yes)) :
    s.accepts (.edit e) = yes := by
  simp only [step, Session.edit] at h
  split at h
  · cases h
  · split at h
    · cases h
    · cases h
      rfl

end

/-! ## Runs without what leaves nothing behind -/

/-- **A step after a run is answered as it is after the accepted edits of the run**, and as it is
after the run without any other steps that are no accepted edits, be the answer a yes or no, a result,
a tree or a fault; and it leaves the same text of the grammar. The latest result is that of the
latest analysis, but an analysis that fails leaves the result before it. With an open log, or none,
no analysis fails of a word that has a text. A word without a text has no analysis, and what an edit
without words is about is not edited: both fail, and leave the session as it was. -/
theorem step_after_acceptedEdits {grammar bound treeDepth log : Value} {s : Session}
    (hs : build grammar bound treeDepth log = .ok s) (steps : List Step) (x : Step) :
    s.Thinned steps (s.acceptedEdits steps) ∧
    (∀ kept, s.Thinned steps kept →
      ((s.after steps).step x).1 = ((s.after kept).step x).1 ∧
      ((s.after steps).step x).2.grammar.text = ((s.after kept).step x).2.grammar.text) ∧
    (∀ e yes, ((s.after steps).step (.edit e)).1 = .ok (.accepted yes) →
      (s.after steps).accepts (.edit e) = yes) ∧
    ((∀ word, .analyze word ∉ steps) → (s.after steps).last = none) ∧
    (∀ before word later, steps = before ++ .analyze word :: later →
      (∀ other, .analyze other ∉ later) →
        (∀ r, ((s.after before).step (.analyze word)).1 = .ok (.result r) →
          (s.after steps).last = some r) ∧
        ∀ f, ((s.after before).step (.analyze word)).1 = .error f →
          (s.after steps).last = (s.after before).last) ∧
    (s.journal.IsOpen → ∀ word : Value, word.HasText →
      ∃ r, ((s.after steps).step (.analyze word)).1 = .ok (.result r)) ∧
    (∀ word : Value, ∀ f, word.display = .error f → f = .numeralTooLong ∧
      (s.after steps).step (.analyze word) = (.error f, s.after steps)) ∧
    ∀ e f, e.text = .error f → f = .numeralTooLong ∧
      (s.after steps).step (.edit e) = (.error f, s.after steps) := by
  have hdepth : (s.after steps).treeDepth ≤ maxTreeDepth :=
    (treeDepth_after s steps).trans_le (treeDepth_of_build hs).2
  refine ⟨s.thinned_acceptedEdits steps, fun kept hk => ?_, fun _ _ => accepts_of_step, fun h => ?_,
    ?_, fun h word => exists_step_analyze h steps, fun word f hf => ?_, fun e f hf => ?_⟩
  · have alike := (Alike.refl s).after_thinned hk
    refine ⟨alike.step_eq hdepth x, ?_⟩
    simp only [Session.grammar, (alike.after_step x).book]
  · rw [last_after h, last_of_build hs]
  · rintro before word later rfl h
    rw [last_after_analyze h]
    exact ⟨fun r => last_step_analyze, fun f => last_step_analyze_error⟩
  · exact ⟨word.failsWith_display f hf, step_analyze_of_error _ hf⟩
  · exact ⟨e.failsWith_text f hf, step_edit_of_error _ hf⟩

/-- A run with a rejected edit, an analysis, a general tree and a depth that is out of range. -/
def detours : List Step :=
  [.edit (.terminal (.text ['a'])), .edit (.terminal (.text ['a'])),
    .edit (.nonterminal (.text ['S'])), .analyze (.text ['a']), .edit (.start (.text ['S'])),
    .edit (.production (.text ['S']) (.text ['a'])), .generalTree .absent,
    .generalTree (.int 11), .analyze (.text ['b'])]

theorem step_after_acceptedEdits_detours :
    ∃ s, build .absent (.int 10) (.int 3) .absent = .ok s ∧
      s.acceptedEdits detours = [.edit (.terminal (.text ['a'])),
        .edit (.nonterminal (.text ['S'])), .edit (.start (.text ['S'])),
        .edit (.production (.text ['S']) (.text ['a']))] ∧
      ((s.after detours).step (.analyze (.text ['a']))).1 =
        ((s.after (s.acceptedEdits detours)).step (.analyze (.text ['a']))).1 ∧
      ∃ r, (s.after detours).last = some r ∧ r.verdict = .nonMember := by
  have hs : build .absent (.int 10) (.int 3) .absent = .ok ⟨⟨{}, none⟩, 10, 3, none, none⟩ := rfl
  obtain ⟨thinned, answers, -, -, latest, -⟩ :=
    step_after_acceptedEdits hs detours (.analyze (.text ['a']))
  exact ⟨_, hs, rfl, (answers _ thinned).1, _, (latest (detours.take 8) _ [] rfl (by simp)).1 _ rfl,
    rfl⟩

/-- The latest analysis fails, of a number that is too long for a numeral or with a log that has been
ended, and the latest result is not its answer: it is that of the analysis before, or there is none. -/
theorem step_after_acceptedEdits_unanswered :
    (let s : Session := { book := { grammar := {} }, bound := 10, treeDepth := 3, journal := none }
      let first : Step := .analyze (.text ['a'])
      let latest : Step := .analyze (.int Numeral.Integer.leastLong)
      build .absent (.int 10) (.int 3) .absent = .ok s ∧
        ((s.after [first]).step latest).1 = .error .numeralTooLong ∧
        (s.after [first, latest]).last = some (.ofInvalid ['a'])) ∧
      let l : Log := { now := ⟨2024, 2, 29, 13, 5, 9, 78⟩, isEnded := true }
      let s : Session := { book := { grammar := {} }, bound := 10, treeDepth := 3, journal := some l }
      let latest : Step := .analyze (.text ['a'])
      build .absent (.int 10) (.int 3) (.log l) = .ok s ∧
        (s.step latest).1 = .error (.log .ended) ∧ (s.after [latest]).last = none := by
  refine ⟨?_, rfl, rfl, rfl⟩
  intro s first latest
  have htoo : numeral Numeral.Integer.leastLong = .error .numeralTooLong :=
    if_neg Numeral.Integer.not_isShort_leastLong
  have hword : Value.display (.int Numeral.Integer.leastLong) = .error .numeralTooLong :=
    (Value.display_int _).trans htoo
  have hstep : (s.step first).2.step latest = (.error .numeralTooLong, (s.step first).2) :=
    step_analyze_of_error _ hword
  simp only [after, hstep]
  exact ⟨rfl, trivial, rfl⟩

end Session

end FormalGrammar
