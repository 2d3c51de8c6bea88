import FormalGrammar.Proofs.Editing
import FormalGrammar.Proofs.Texts

/-!
# The line that is blamed

A text of a grammar is read from its first line on. Blank lines do nothing; the first of the others
must be a header, and each further one gives productions to what has been read so far
(`readLines_concat`). So a failure stays whatever lines follow, it names the line that has caused
it, and before that line there was none. What has been read is only added to, which is why a text
that is read can be cut behind any line from its header on.

Main statement: `Grammar.fault_of_firstLines`.
-/

namespace FormalGrammar

open Text

namespace Grammar

/-! ## Cutting texts -/

/-- The text cut after its first `k` lines. -/
def firstLines (k : Nat) (t : Text) : Text := ['\n'].intercalate ((splitOn '\n' t).take k)

/-- The second grammar has the same symbols and start, and gives further bodies behind those of the
first, also for further left-hand sides. -/
structure IsContinued (g g' : Grammar) : Prop where
  terminals : g'.terminals = g.terminals
  nonterminals : g'.nonterminals = g.nonterminals
  start : g'.start = g.start
  keys : g.rules.map Prod.fst <+: g'.rules.map Prod.fst
  rulesFor : ∀ x, g.rulesFor x <+: g'.rulesFor x

/-! ## Reading line by line -/

/-- The lines that are not blank, trimmed at the end, with their numbers from one. -/
def content (ls : List Text) : List (Text × Nat) :=
  ((ls.zipIdx 1).filter fun (line, _) => !allBlank line).map
    fun (line, number) => (trimEnd line, number)

theorem content_concat (ls : List Text) (line : Text) :
    content (ls ++ [line]) =
      content ls ++ if allBlank line then [] else [(trimEnd line, ls.length + 1)] := by
  rw [content, List.zipIdx_append, List.filter_append, List.map_append, ← content]
  cases hb : allBlank line <;> simp [hb, Nat.add_comm]

/-- What lines make that are not blank: a header, and productions below it. -/
def readContent : List (Text × Nat) → Except ReadError Grammar
  | [] => .error .empty
  | (line, number) :: rest =>
    match atLine number (readHeader line) with
    | .ok g => readRest g rest
    | .error e => .error e

/-- What the lines make, be they the lines of a text or the first of them. -/
def readLines (ls : List Text) : Except ReadError Grammar := readContent (content ls)

theorem ofText_eq_readLines (t : Text) : ofText t = readLines (splitOn '\n' t) := rfl

/-- What a line makes of what the lines before it have made. -/
def readNext (number : Nat) (line : Text) : Except ReadError Grammar → Except ReadError Grammar
  | .ok g => atLine number (readProductions g line)
  | .error .empty => atLine number (readHeader line)
  | .error (.atLine k fault) => .error (.atLine k fault)

theorem readRest_concat (g : Grammar) (ls : List (Text × Nat)) (line : Text) (number : Nat) :
    readRest g (ls ++ [(line, number)]) =
      (readRest g ls).bind fun g => atLine number (readProductions g line) := by
  induction ls generalizing g with
  | nil =>
    simp only [List.nil_append, readRest, Except.bind]
    cases readProductions g line <;> rfl
  | cons l ls ih =>
    obtain ⟨line', number'⟩ := l
    rw [List.cons_append, readRest, readRest]
    cases readProductions g line' with
    | ok g' => exact ih g'
    | error fault => rfl

theorem readRest_ne_empty (g : Grammar) (ls : List (Text × Nat)) :
    readRest g ls ≠ .error .empty := by
  induction ls generalizing g with
  | nil => exact nofun
  | cons l ls ih =>
    obtain ⟨line, number⟩ := l
    rw [readRest]
    cases readProductions g line with
    | ok g' => exact ih g'
    | error fault => exact nofun

theorem readContent_concat (ls : List (Text × Nat)) (line : Text) (number : Nat) :
    readContent (ls ++ [(line, number)]) = readNext number line (readContent ls) := by
  cases ls with
  | nil =>
    simp only [List.nil_append, readContent, readNext, readRest]
    cases readHeader line <;> rfl
  | cons l rest =>
    obtain ⟨header, first⟩ := l
    simp only [List.cons_append, readContent, readRest_concat]
    cases readHeader header with
    | error fault => rfl
    | ok g =>
      simp only [atLine]
      cases hr : readRest g rest with
      | ok g' => rfl
      | error e =>
        cases e with
        | empty => exact absurd hr (readRest_ne_empty g rest)
        | atLine k fault => rfl

/-- **Lines are read one after the other**, each on top of those before it. -/
theorem readLines_concat (ls : List Text) (line : Text) :
    readLines (ls ++ [line]) =
      if allBlank line then readLines ls
      else readNext (ls.length + 1) (trimEnd line) (readLines ls) := by
  rw [readLines, content_concat]
  split
  · rw [List.append_nil, readLines]
  · rw [readContent_concat, readLines]

/-! ## Lines that are blank, lines that are read, and the line that is blamed -/

theorem readNext_ne_empty (number : Nat) (line : Text) (x : Except ReadError Grammar) :
    readNext number line x ≠ .error .empty := by
  have located (y : Except LineFault Grammar) : atLine number y ≠ .error .empty := by
    cases y <;> exact nofun
  match x with
  | .ok g => exact located _
  | .error .empty => exact located _
  | .error (.atLine k fault) => exact nofun

theorem readLines_eq_empty_iff {ls : List Text} :
    readLines ls = .error .empty ↔ ∀ line ∈ ls, allBlank line = true := by
  induction ls using List.reverseRecOn with
  | nil => simp [readLines, content, readContent]
  | append_singleton ls line ih =>
    rw [readLines_concat, List.forall_mem_append, ← ih, List.forall_mem_singleton]
    split
    · next hb => simp [hb]
    · next hb => simp [hb, readNext_ne_empty]

/-- A failure that names a line stays, whatever lines follow. -/
theorem readLines_append_of_fault {ls : List Text} {k : Nat} {fault : LineFault}
    (h : readLines ls = .error (.atLine k fault)) (ms : List Text) :
    readLines (ls ++ ms) = .error (.atLine k fault) := by
  induction ms using List.reverseRecOn with
  | nil => rwa [List.append_nil]
  | append_singleton ms line ih =>
    rw [← List.append_assoc, readLines_concat, ih]
    split <;> rfl

theorem line_of_atLine {x : Except LineFault Grammar} {number k : Nat} {fault : LineFault}
    (h : atLine number x = .error (.atLine k fault)) : number = k := by
  cases x <;> cases h
  rfl

/-- **The line that is named has caused the failure**: with the lines before it there was none. -/
theorem exists_of_fault {ls : List Text} {k : Nat} {fault : LineFault}
    (h : readLines ls = .error (.atLine k fault)) :
    ∃ before line after, ls = before ++ line :: after ∧ before.length + 1 = k ∧
      allBlank line = false ∧ readLines (before ++ [line]) = .error (.atLine k fault) ∧
      ((∃ l ∈ before, allBlank l = false) → ∃ g, readLines before = .ok g) := by
  induction ls using List.reverseRecOn with
  | nil => simp [readLines, content, readContent] at h
  | append_singleton ls line ih =>
    have earlier (hls : readLines ls = .error (.atLine k fault)) : ∃ before m after,
        ls ++ [line] = before ++ m :: after ∧ before.length + 1 = k ∧ allBlank m = false ∧
          readLines (before ++ [m]) = .error (.atLine k fault) ∧
          ((∃ l ∈ before, allBlank l = false) → ∃ g, readLines before = .ok g) := by
      obtain ⟨before, m, after, rfl, rest⟩ := ih hls
      exact ⟨before, m, after ++ [line], by simp, rest⟩
    have hread := h
    rw [readLines_concat] at hread
    split at hread
    · exact earlier hread
    · next hb =>
      have hb' : allBlank line = false := Bool.not_eq_true _ ▸ hb
      cases hls : readLines ls with
      | ok g =>
        rw [hls] at hread
        exact ⟨ls, line, [], rfl, line_of_atLine hread, hb', h, fun _ => ⟨g, hls⟩⟩
      | error e =>
        cases e with
        | empty =>
          rw [hls] at hread
          refine ⟨ls, line, [], rfl, line_of_atLine hread, hb', h, fun ⟨l, hl, hlb⟩ => ?_⟩
          rw [readLines_eq_empty_iff.mp hls l hl] at hlb
          cases hlb
        | atLine k' fault' =>
          rw [hls] at hread
          exact earlier (hls.trans hread)

/-! ## Grammars that are added to -/

namespace IsContinued

variable {g g' g'' : Grammar}

theorem refl (g : Grammar) : g.IsContinued g :=
  ⟨rfl, rfl, rfl, List.prefix_rfl, fun _ => List.prefix_rfl⟩

theorem trans (h : g.IsContinued g') (h' : g'.IsContinued g'') : g.IsContinued g'' :=
  ⟨h'.terminals.trans h.terminals, h'.nonterminals.trans h.nonterminals, h'.start.trans h.start,
    h.keys.trans h'.keys, fun x => (h.rulesFor x).trans (h'.rulesFor x)⟩

theorem addProduction {lhs rhs : Text} (h : g.addProduction? lhs rhs = some g') :
    g.IsContinued g' := by
  obtain ⟨x, body, -, -, -, rfl⟩ := addProduction?_eq_some_iff.mp h
  refine ⟨rfl, rfl, rfl, ?_, fun y => ?_⟩
  · rw [map_fst_appendRule]
    split
    · exact List.prefix_rfl
    · exact List.prefix_append _ _
  · rw [rulesFor_appendRule]
    split
    · next hy => exact hy ▸ List.prefix_append _ _
    · exact List.prefix_rfl

theorem addAll {add : Grammar → Text → Option Grammar} {fault : Text → LineFault}
    (hadd : ∀ g s g', add g s = some g' → g.IsContinued g') {items : List Text}
    (h : addAll add fault g items = .ok g') : g.IsContinued g' := by
  induction items generalizing g with
  | nil =>
    cases h
    exact refl _
  | cons item items ih =>
    rw [Grammar.addAll] at h
    split at h
    · next g₁ hg₁ => exact (hadd g item g₁ hg₁).trans (ih h)
    · cases h

theorem readProductions {line : Text} (h : readProductions g line = .ok g') :
    g.IsContinued g' := by
  unfold Grammar.readProductions at h
  split at h
  · cases h
  · dsimp only at h
    split at h
    · cases h
    · exact addAll (fun _ _ _ => addProduction) h

end IsContinued

/-- **What has been read is only added to**: where a text is read, so is each beginning of it that
has a line that is not blank. -/
theorem exists_of_readLines_append {ls ms : List Text} {g : Grammar}
    (hls : ∃ line ∈ ls, allBlank line = false) (h : readLines (ls ++ ms) = .ok g) :
    ∃ g', readLines ls = .ok g' ∧ g'.IsContinued g := by
  induction ms using List.reverseRecOn generalizing g with
  | nil => exact ⟨_, by rwa [List.append_nil] at h, .refl _⟩
  | append_singleton ms line ih =>
    rw [← List.append_assoc, readLines_concat] at h
    split at h
    · exact ih h
    · cases hbefore : readLines (ls ++ ms) with
      | ok g₁ =>
        obtain ⟨g', hg', hcont⟩ := ih hbefore
        rw [hbefore, readNext] at h
        cases hline : readProductions g₁ (trimEnd line) with
        | ok g₂ =>
          rw [hline] at h
          cases h
          exact ⟨g', hg', hcont.trans (.readProductions hline)⟩
        | error fault =>
          rw [hline] at h
          cases h
      | error e =>
        cases e with
        | empty =>
          obtain ⟨l, hl, hb⟩ := hls
          rw [readLines_eq_empty_iff.mp hbefore l (List.mem_append_left ms hl)] at hb
          cases hb
        | atLine k fault =>
          rw [hbefore] at h
          cases h

/-! ## Texts -/

/-- A text that is cut behind its first lines is read as these lines. -/
theorem ofText_firstLines (k : Nat) (t : Text) :
    ofText (firstLines k t) = readLines ((splitOn '\n' t).take k) := by
  rw [firstLines, ofText_eq_readLines]
  cases hk : (splitOn '\n' t).take k with
  | nil => rfl
  | cons l ls =>
    rw [← hk, splitOn_intercalate (by simp [hk])]
    exact fun p hp => notMem_of_mem_splitOn (List.mem_of_mem_take hp)

theorem ofText_eq_empty_iff {t : Text} :
    ofText t = .error .empty ↔ ∀ line ∈ splitOn '\n' t, allBlank line = true :=
  readLines_eq_empty_iff

/-- Texts that share the lines up to the one that is blamed fail alike. -/
theorem ofText_of_take_eq {t t' : Text} {k : Nat} {fault : LineFault}
    (h : readLines ((splitOn '\n' t).take k) = .error (.atLine k fault))
    (ht : (splitOn '\n' t').take k = (splitOn '\n' t).take k) :
    ofText t' = .error (.atLine k fault) := by
  rw [ofText_eq_readLines, ← List.take_append_drop k (splitOn '\n' t'), ht]
  exact readLines_append_of_fault h _

theorem ofValue_eq_ok_iff {t : Text} {g : Grammar} :
    ofValue (.text t) = .ok g ↔ ofText t = .ok g := by
  rw [ofValue]
  cases ofText t <;> simp

theorem ofValue_eq_error_iff {t : Text} {f : Fault} :
    ofValue (.text t) = .error f ↔ ∃ e, f = .grammarText e ∧ ofText t = .error e := by
  rw [ofValue]
  cases ofText t <;> simp [eq_comm]

/-- **The line that is blamed is the first that cannot stand in a grammar.** A text that is refused
has no line to blame if all its lines are blank. Otherwise the line `k` that is named is not blank,
and it decides alone: every text with the same first `k` lines is refused with the same fault, and
without line `k` the text is a grammar, unless only blank lines are left. A text that is read can
be cut behind any line that is not before its header, and what it was read as continues what is
left. -/
theorem fault_of_firstLines (t : Text) :
    (∀ f, ofValue (.text t) = .error f → ∃ e, f = .grammarText e ∧
      (e.line? = none ↔ ∀ line ∈ splitOn '\n' t, allBlank line = true) ∧
      ∀ k, e.line? = some k →
        (∃ before line after, splitOn '\n' t = before ++ line :: after ∧ before.length + 1 = k ∧
          allBlank line = false ∧ ((∃ l ∈ before, allBlank l = false) →
            ∃ g, ofValue (.text (firstLines (k - 1) t)) = .ok g)) ∧
        ofValue (.text (firstLines k t)) = .error f ∧
        ∀ t', (splitOn '\n' t').take k = (splitOn '\n' t).take k →
          ofValue (.text t') = .error f) ∧
    ∀ g, ofValue (.text t) = .ok g →
      ∀ k, (∃ line ∈ (splitOn '\n' t).take k, allBlank line = false) →
        ∃ g', ofValue (.text (firstLines k t)) = .ok g' ∧ g'.IsContinued g := by
  refine ⟨fun f hf => ?_, fun g hg k hk => ?_⟩
  · obtain ⟨e, rfl, he⟩ := ofValue_eq_error_iff.mp hf
    refine ⟨e, rfl, ?_, fun k hk => ?_⟩
    · rw [← ofText_eq_empty_iff, he]
      cases e <;> simp [ReadError.line?]
    · obtain ⟨fault, rfl⟩ : ∃ fault, e = .atLine k fault := by
        cases e <;> cases hk
        exact ⟨_, rfl⟩
      obtain ⟨before, line, after, hsplit, rfl, hb, hread, hbefore⟩ := exists_of_fault he
      have htake : (splitOn '\n' t).take (before.length + 1) = before ++ [line] := by
        rw [hsplit, List.take_length_add_append]
        rfl
      rw [← htake] at hread
      have same (t' : Text) (ht : (splitOn '\n' t').take (before.length + 1) =
          (splitOn '\n' t).take (before.length + 1)) :
          ofValue (.text t') = .error (.grammarText (.atLine (before.length + 1) fault)) :=
        ofValue_eq_error_iff.mpr ⟨_, rfl, ofText_of_take_eq hread ht⟩
      refine ⟨⟨before, line, after, hsplit, rfl, hb, fun hl => ?_⟩, ?_, same⟩
      · obtain ⟨g, hg⟩ := hbefore hl
        refine ⟨g, ofValue_eq_ok_iff.mpr ?_⟩
        rw [ofText_firstLines, hsplit]
        simpa using hg
      · rw [ofValue_eq_error_iff]
        exact ⟨_, rfl, (ofText_firstLines _ t).trans hread⟩
  · rw [ofValue_eq_ok_iff, ofText_eq_readLines, ← List.take_append_drop k (splitOn '\n' t)] at hg
    obtain ⟨g', hg', hcont⟩ := exists_of_readLines_append hk hg
    exact ⟨g', ofValue_eq_ok_iff.mpr ((ofText_firstLines k t).trans hg'), hcont⟩

/-- Blank lines count in the number of a line. -/
def spaced : Text := "\nG = (\x7ba\x7d, \x7bS\x7d, S, P)\n \nS -> a | b\n->".toList

def twoLines : Text := "G = (\x7ba\x7d, \x7bS\x7d, S, P)\nS -> a\nS -> ε|SS".toList

/-- The second body of the fourth line is refused, whatever stands in the fifth; the three lines
before it are a grammar. A header and the first of two lines of productions are one as well. -/
theorem fault_of_firstLines_spaced :
    (∃ f, ofValue (.text spaced) = .error f ∧
      f = .grammarText (.atLine 4 (.production ['S'] ['b'])) ∧
      ofValue (.text (firstLines 4 spaced ++ "\nS -> a".toList)) = .error f ∧
      ∃ g, ofValue (.text (firstLines 3 spaced)) = .ok g) ∧
    ∃ g g', ofValue (.text twoLines) = .ok g ∧ ofValue (.text (firstLines 2 twoLines)) = .ok g' ∧
      g'.rulesFor 'S' = [['a']] ∧ g.rulesFor 'S' = [['a'], [], ['S', 'S']] ∧ g'.IsContinued g := by
  constructor
  · have hf : ofValue (.text spaced) =
        .error (.grammarText (.atLine 4 (.production ['S'] ['b']))) := by rfl
    obtain ⟨e, he, -, blamed⟩ := (fault_of_firstLines spaced).1 _ hf
    cases he
    obtain ⟨⟨before, line, after, hsplit, hlength, -, hbefore⟩, -, same⟩ := blamed 4 rfl
    have hb : before = (splitOn '\n' spaced).take 3 := by
      rw [hsplit, ← Nat.succ.inj hlength, List.take_left]
    refine ⟨_, hf, rfl, same _ (by decide +kernel), hbefore ?_⟩
    rw [hb]
    decide +kernel
  · have hg : ofValue (.text twoLines) =
        .ok ⟨['a'], ['S'], some 'S', [('S', [['a'], [], ['S', 'S']])]⟩ := by rfl
    have hcut : ofValue (.text (firstLines 2 twoLines)) =
        .ok ⟨['a'], ['S'], some 'S', [('S', [['a']])]⟩ := by rfl
    obtain ⟨g', hg', hcont⟩ := (fault_of_firstLines twoLines).2 _ hg 2 (by decide +kernel)
    obtain rfl := Except.ok.inj (hcut.symm.trans hg')
    exact ⟨_, _, hg, hg', rfl, rfl, hcont⟩

end Grammar

end FormalGrammar
