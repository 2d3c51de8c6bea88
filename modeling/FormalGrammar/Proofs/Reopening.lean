import FormalGrammar.Proofs.Making
import FormalGrammar.Proofs.Saving

/-!
# Sessions handed over as documents

A session that has been opened and used can be opened again from its document, with no text in
between (`Session.reopened`). Nothing has to be asked of its symbols, unlike when it is saved: the
keys of the document are only looked up, never written on lines.

The document of a session is the one that is made from a mapping of what the session holds
(`Session.build_parts`).
-/

namespace FormalGrammar.Session

/-! ## Sessions in use -/

/-- The sessions that come about by opening one, on a grammar that was made by editing or on none,
and using it. Steps may be refused. -/
inductive Reached : Session → Prop
  | build {grammar bound treeDepth log : Value} {s : Session}
      (hg : ∀ b, grammar = .grammar b → b.grammar.Reachable)
      (h : build grammar bound treeDepth log = .ok s) : Reached s
  | edit {s : Session} (hs : Reached s) (e : Edit) : Reached (s.edit e).2
  | analyze {s : Session} (hs : Reached s) (word : Value) : Reached (s.analyze word).2
  | generalTree {s : Session} (hs : Reached s) (depth : Value) : Reached (s.generalTree depth).2
  | setBound {s s' : Session} (hs : Reached s) {bound : Value} (h : s.setBound bound = .ok s') :
      Reached s'

/-- What holds of every session: its grammar was made by editing, its bound has a numeral, and its
depth is in range. -/
structure IsSound (s : Session) : Prop where
  grammar : s.grammar.Reachable
  bound : Numeral.Integer.IsShort s.bound
  treeDepth : minTreeDepth ≤ s.treeDepth ∧ s.treeDepth ≤ maxTreeDepth

theorem readTreeDepth_eq_ok {v : Value} {n : Nat} (h : readTreeDepth v = .ok n) :
    minTreeDepth ≤ n ∧ n ≤ maxTreeDepth := by
  unfold readTreeDepth at h
  split at h
  · cases h
  · split at h
    · cases h
    · split at h
      · next hm =>
        cases h
        omega
      · cases h

theorem readBound_eq_ok {v : Value} {n : Nat} (h : Analysis.readBound v = .ok n) :
    Numeral.Integer.IsShort n := by
  unfold Analysis.readBound at h
  split at h
  · cases h
  · split at h
    · cases h
    · next hshort =>
      split at h
      · cases h
      · next hneg =>
        cases h
        rw [Int.toNat_of_nonneg (by omega)]
        exact not_not.mp hshort

theorem readGrammar_eq_ok {v w : Value} (hv : ∀ b, v = .grammar b → b.grammar.Reachable)
    (h : readGrammar v = .ok w) : ∃ b : RuleBook, w = .grammar b ∧ b.grammar.Reachable := by
  unfold readGrammar at h
  split at h
  · cases h
    exact ⟨_, rfl, .empty⟩
  · next b =>
    cases h
    exact ⟨b, rfl, hv b rfl⟩
  · cases h

/-- What a session is opened with. -/
theorem build_eq_ok {grammar bound treeDepth log : Value} {s : Session}
    (h : Session.build grammar bound treeDepth log = .ok s) :
    ∃ v book m n journal, readGrammar grammar = .ok v ∧ Analysis.readBook v = some book ∧
      Analysis.readBound bound = .ok m ∧ readTreeDepth treeDepth = .ok n ∧
      s = { book, bound := m, treeDepth := n, journal } := by
  unfold Session.build Analysis.readArguments at h
  cases hg : readGrammar grammar with
  | error f => simp only [hg, reduceCtorEq] at h
  | ok v =>
    cases hb : Analysis.readBook v with
    | none => simp only [hg, hb, reduceCtorEq] at h
    | some book =>
      cases hj : Analysis.readJournal log with
      | none => simp only [hg, hb, hj, reduceCtorEq] at h
      | some journal =>
        cases hm : Analysis.readBound bound with
        | error f => simp only [hg, hb, hj, hm, reduceCtorEq] at h
        | ok m =>
          cases hn : readTreeDepth treeDepth with
          | error f => simp only [hg, hb, hj, hm, hn, reduceCtorEq] at h
          | ok n =>
            simp only [hg, hb, hj, hm, hn, Except.ok.injEq] at h
            exact ⟨v, book, m, n, journal, rfl, hb, rfl, rfl, h.symm⟩

theorem treeDepth_of_build {grammar bound treeDepth log : Value} {s : Session}
    (h : Session.build grammar bound treeDepth log = .ok s) :
    minTreeDepth ≤ s.treeDepth ∧ s.treeDepth ≤ maxTreeDepth := by
  obtain ⟨v, book, m, n, journal, -, -, -, hn, rfl⟩ := build_eq_ok h
  exact readTreeDepth_eq_ok hn

theorem isSound_of_build {grammar bound treeDepth log : Value} {s : Session}
    (hg : ∀ b, grammar = .grammar b → b.grammar.Reachable)
    (h : Session.build grammar bound treeDepth log = .ok s) : s.IsSound := by
  have hdepth := treeDepth_of_build h
  obtain ⟨v, book, m, n, journal, hread, hbook, hm, -, rfl⟩ := build_eq_ok h
  obtain ⟨b, rfl, hb⟩ := readGrammar_eq_ok hg hread
  cases hbook
  exact ⟨hb, readBound_eq_ok hm, hdepth⟩

/-- An edit of a session is an edit of its grammar, whether it can be noted or not. -/
theorem edit_eq (s : Session) (e : Edit) :
    ∃ journal, (s.edit e).2 = { s with book := (s.book.edit e).2, journal } := by
  simp only [Session.edit]
  split
  · exact ⟨_, rfl⟩
  · split
    · exact ⟨_, rfl⟩
    · exact ⟨_, rfl⟩

theorem analyze_eq (s : Session) (word : Value) :
    ∃ journal last, (s.analyze word).2 = { s with journal, last } := by
  simp only [Session.analyze]
  split
  · exact ⟨_, _, rfl⟩
  · exact ⟨_, _, rfl⟩

theorem generalTree_eq (s : Session) (depth : Value) :
    ∃ journal, (s.generalTree depth).2 = { s with journal } := by
  simp only [Session.generalTree]
  split
  · exact ⟨_, rfl⟩
  · exact ⟨_, rfl⟩

theorem setBound_eq {s s' : Session} {v : Value} (h : s.setBound v = .ok s') :
    ∃ bound : Nat, Numeral.Integer.IsShort bound ∧ s' = { s with bound } := by
  unfold Session.setBound at h
  split at h
  · cases h
  · next hbound =>
    cases h
    exact ⟨_, readBound_eq_ok hbound, rfl⟩

/-- **Every session is sound**, however it was used. -/
theorem Reached.isSound {s : Session} (h : s.Reached) : s.IsSound := by
  induction h with
  | build hg h => exact isSound_of_build hg h
  | @edit s _ e ih =>
    obtain ⟨journal, he⟩ := s.edit_eq e
    rw [he]
    exact ⟨ih.grammar.edit e, ih.bound, ih.treeDepth⟩
  | @analyze s _ word ih =>
    obtain ⟨journal, last, he⟩ := s.analyze_eq word
    rw [he]
    exact ⟨ih.grammar, ih.bound, ih.treeDepth⟩
  | @generalTree s _ depth ih =>
    obtain ⟨journal, he⟩ := s.generalTree_eq depth
    rw [he]
    exact ⟨ih.grammar, ih.bound, ih.treeDepth⟩
  | setBound _ h ih =>
    obtain ⟨bound, hbound, rfl⟩ := setBound_eq h
    exact ⟨ih.grammar, hbound, ih.treeDepth⟩

/-! ## The document of a session -/

def symbolTuple (cs : List Char) : Value := .tuple (cs.map fun c => .text [c])

/-- The bodies of each left-hand side, as a mapping. -/
def ruleParts (rules : List (Char × List Form)) : List (Value × Value) :=
  rules.map fun r => (.text [r.1], .tuple (r.2.map fun b => .text b.text))

def grammarParts (g : Grammar) : List (Value × Value) :=
  [(.text terminalsKey, symbolTuple g.terminals),
    (.text nonterminalsKey, symbolTuple g.nonterminals),
    (.text startKey, Grammar.startValue g.start),
    (.text productionsKey, .map (ruleParts g.rules))]

def settingParts (bound treeDepth : Nat) : List (Value × Value) :=
  [(.text maxDepthKey, .int bound), (.text treeDepthKey, .int treeDepth)]

/-- What a session holds, as a mapping. -/
def parts (s : Session) : Value :=
  .map [(.text grammarKey, .map (grammarParts s.grammar)),
    (.text analysisKey, .map (settingParts s.bound s.treeDepth))]

theorem entryFor_map {key : Text} {pairs : List (Value × Value)} {e : Entries}
    (h : Document.putPairs .nil pairs = .ok e) :
    Document.entryFor key (.map pairs) = .ok (.space (some key) e) := by
  rw [Document.entryFor]
  simp only [h]

theorem entryFor_symbolTuple (key : Text) (cs : List Char) :
    Document.entryFor key (symbolTuple cs) =
      .ok (.values ((cs.map fun c => [c]).map .text)) := by
  rw [← Document.entryFor_tuple, List.map_map, List.map_map]
  rfl

theorem entryFor_scalar {v : Value} {x : Scalar} (key : Text) (h : v.scalar? = some x) :
    Document.entryFor key v = .ok (.values [x]) := by
  unfold Document.entryFor
  split
  · cases h
  · cases h
  · simp only [Document.valuesEntry, h]

/-- Rules are stored from the mapping of their bodies, in their order. -/
theorem putPairs_ruleParts {rules : List (Char × List Form)} (hn : (rules.map Prod.fst).Nodup) :
    Document.putPairs .nil (ruleParts rules) = .ok (productionEntries rules) := by
  have hparts : ruleParts rules = Document.pairsOf (productionEntries rules) := by
    induction rules with
    | nil => rfl
    | cons r rules ih =>
      have hbodies : ((r.2.map Form.text).map Scalar.text).map Value.ofScalar =
          r.2.map fun b => .text b.text := by simp [Value.ofScalar]
      rw [ruleParts, List.map_cons, ← ruleParts, ih (List.nodup_cons.mp hn).2, ← hbodies]
      rfl
  rw [hparts]
  exact Document.putPairs_pairsOf (distinct_productionEntries hn) fun _ _ => List.not_mem_nil

theorem putPairs_grammarParts {g : Grammar} (hg : g.WellFormed) :
    Document.putPairs .nil (grammarParts g) = .ok (grammarEntries g) := by
  have hstart : (Grammar.startValue g.start).scalar? =
      some (g.start.elim .none fun c => .text [c]) := by
    cases g.start <;> rfl
  rw [grammarParts, Document.putPairs_cons (entryFor_symbolTuple _ _),
    Document.putPairs_cons (entryFor_symbolTuple _ _), Document.putPairs_cons (entryFor_scalar _ hstart),
    Document.putPairs_cons (entryFor_map (putPairs_ruleParts hg.keys_nodup)), grammarEntries]
  cases g.start <;> rfl

theorem putPairs_settingParts (bound treeDepth : Nat) :
    Document.putPairs .nil (settingParts bound treeDepth) = .ok (settingEntries bound treeDepth) := by
  rw [settingParts, Document.putPairs_cons (entryFor_scalar _ rfl), Document.putPairs_cons (entryFor_scalar _ rfl)]
  rfl

/-- **The document of a session is made from a mapping of its parts.** -/
theorem build_parts {s : Session} (hg : s.grammar.WellFormed) :
    Document.build .absent s.parts = .ok s.toDocument := by
  have hput : Document.putPairs .nil [(.text grammarKey, .map (grammarParts s.grammar)),
      (.text analysisKey, .map (settingParts s.bound s.treeDepth))] =
        .ok s.toDocument.entries := by
    rw [Document.putPairs_cons (entryFor_map (putPairs_grammarParts hg)),
      Document.putPairs_cons (entryFor_map (putPairs_settingParts _ _))]
    rfl
  simp only [Document.build, parts, hput]
  rfl

/-- **A session is opened again from its document**, which is made from a mapping of its parts: with
the same grammar, so with the same text of it, and with the same settings. The log is the one that
is given, and there is no latest result. -/
theorem reopened {s : Session} (hs : s.Reached) {log : Value} {j : Journal}
    (hj : Analysis.readJournal log = some j) :
    Document.build .absent s.parts = .ok s.toDocument ∧
      ∃ s', ofValue (.document s.toDocument) log = .ok s' ∧ s'.grammar = s.grammar ∧
        s'.grammar.text = s.grammar.text ∧ s'.bound = s.bound ∧ s'.treeDepth = s.treeDepth ∧
        s'.journal = j ∧ s'.last = none := by
  have hsound := hs.isSound
  have hg := hsound.grammar.wellFormed
  exact ⟨build_parts hg, _, ofDocument_toDocument hg hsound.bound hsound.treeDepth hj, rfl, rfl, rfl,
    rfl, rfl, rfl⟩

/-- A session whose grammar has no start, and whose nonterminals are marks of documents. -/
def markedKeys : Session where
  book := ⟨Grammar.afterEdits {} [.nonterminal (.text ['=']), .nonterminal (.text ['%']),
    .nonterminal (.text ['>']), .terminal (.text ['<']), .production (.text ['>']) (.text ['<', '=']),
    .production (.text ['=']) (.text ['ε']), .production (.text ['=']) (.text ['%', '>'])], none⟩
  bound := 0
  treeDepth := 10
  journal := none

theorem reopened_markedKeys :
    markedKeys.Reached ∧ markedKeys.grammar.start = none ∧
      ∃ s', ofValue (.document markedKeys.toDocument) .absent = .ok s' ∧
        s'.grammar.rules = [('>', [['<', '=']]), ('=', [[], ['%', '>']])] ∧ s'.bound = 0 ∧
        s'.treeDepth = 10 := by
  have hbuild : Session.build (.grammar markedKeys.book) (.int 0) (.int 10) .absent =
      .ok markedKeys := rfl
  have hreached : markedKeys.Reached := by
    refine .build (fun b hb => ?_) hbuild
    cases hb
    exact Grammar.Reachable.empty.afterEdits _
  have hlog : Analysis.readJournal .absent = some none := rfl
  obtain ⟨-, s', hs, hg, -, hb, ht, -⟩ := reopened hreached hlog
  exact ⟨hreached, by decide, s', hs, by rw [hg]; decide, hb, ht⟩

end FormalGrammar.Session
