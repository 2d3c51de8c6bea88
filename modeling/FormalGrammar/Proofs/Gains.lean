import FormalGrammar.Proofs.ReadBack

/-!
# What a grammar gains by an edit

An edit is accepted exactly if it names something that the grammar may gain, and the grammar then
gains that and nothing else: a symbol, a start, or one body at the end of its group
(`Grammar.WellFormed.outcome?_eq_some_iff`). Together with what every run of edits keeps, this is
the contract of editing (`Grammar.reached_by_gains`).
-/

namespace FormalGrammar.Grammar

/-- A grammar, an accepted edit, and the grammar with what it gains. -/
inductive Gains (g : Grammar) : Edit → Grammar → Prop
  | terminal {c : Char} (usable : Symbol.isUsable c = true) (new : g.declares c = false) :
      Gains g (.terminal (.text [c])) { g with terminals := g.terminals ++ [c] }
  | nonterminal {c : Char} (usable : Symbol.isUsable c = true) (new : g.declares c = false) :
      Gains g (.nonterminal (.text [c])) { g with nonterminals := g.nonterminals ++ [c] }
  | start {c : Char} (declared : c ∈ g.nonterminals) :
      Gains g (.start (.text [c])) { g with start := some c }
  | firstBody {x : Char} {body : Form} (declared : x ∈ g.nonterminals)
      (symbols : ∀ c ∈ body, g.declares c = true) (new : x ∉ g.rules.map Prod.fst) :
      Gains g (.production (.text [x]) (.text body.text))
        { g with rules := g.rules ++ [(x, [body])] }
  | nextBody {x : Char} {body : Form} {bodies : List Form} {before after : List (Char × List Form)}
      (declared : x ∈ g.nonterminals) (symbols : ∀ c ∈ body, g.declares c = true)
      (group : g.rules = before ++ (x, bodies) :: after) :
      Gains g (.production (.text [x]) (.text body.text))
        { g with rules := before ++ (x, bodies ++ [body]) :: after }

variable {g g' : Grammar}

/-! ## Bodies -/

/-- The text that spells a body is the text of that body. -/
theorem text_of_body? {s : Text} {body : Form} (h : g.body? s = some body) :
    s = body.text ∧ ∀ c ∈ body, g.declares c = true := by
  rcases body?_eq_some_iff.mp h with ⟨rfl, rfl⟩ | ⟨-, hne, hd, rfl⟩
  · exact ⟨rfl, by simp⟩
  · refine ⟨?_, hd⟩
    rw [Form.text, if_neg (by simpa using hne)]

/-! ## Groups -/

/-- No group before another one is for the same left-hand side. -/
theorem WellFormed.notMem_before (hg : g.WellFormed) {x : Char} {bodies : List Form}
    {before after : List (Char × List Form)} (h : g.rules = before ++ (x, bodies) :: after) :
    x ∉ before.map Prod.fst := by
  have hn := hg.keys_nodup
  rw [h, List.map_append, List.map_cons] at hn
  intro hm
  exact (List.nodup_append.mp hn).2.2 x hm x List.mem_cons_self rfl

/-- A body is appended as the first of its group, or behind the others. -/
theorem gains_appendRule (hg : g.WellFormed) {x : Char} {body : Form} (hx : x ∈ g.nonterminals)
    (hb : ∀ c ∈ body, g.declares c = true) :
    g.Gains (.production (.text [x]) (.text body.text))
      { g with rules := appendRule x body g.rules } := by
  by_cases hm : x ∈ g.rules.map Prod.fst
  · obtain ⟨⟨_, bodies⟩, hr, rfl⟩ := List.mem_map.mp hm
    obtain ⟨before, after, hrules⟩ := List.append_of_mem hr
    -- Appending finds this group, because none before it is for the same left-hand side.
    have happend := appendRule_group (hg.notMem_before hrules) bodies body after
    rw [hrules, happend]
    exact .nextBody hx hb hrules
  · rw [appendRule_of_not_mem hm]
    exact .firstBody hx hb hm

/-! ## Edits -/

/-- **An edit is accepted exactly if the grammar may gain what it names**, and that is all that
changes. -/
theorem WellFormed.outcome?_eq_some_iff (hg : g.WellFormed) {e : Edit} :
    e.outcome? g = some g' ↔ g.Gains e g' := by
  constructor
  · intro h
    unfold Edit.outcome? at h
    split at h
    · obtain ⟨c, rfl, hu, hn, rfl⟩ := addTerminal?_eq_some_iff.mp h
      exact .terminal hu hn
    · obtain ⟨c, rfl, hu, hn, rfl⟩ := addNonterminal?_eq_some_iff.mp h
      exact .nonterminal hu hn
    · obtain ⟨c, rfl, hc, rfl⟩ := setStart?_eq_some_iff.mp h
      exact .start hc
    · obtain ⟨x, body, rfl, hx, hb, rfl⟩ := addProduction?_eq_some_iff.mp h
      obtain ⟨rfl, hd⟩ := text_of_body? hb
      exact gains_appendRule hg hx hd
    · cases h
  · intro h
    cases h with
    | terminal hu hn => exact addTerminal?_eq_some_iff.mpr ⟨_, rfl, hu, hn, rfl⟩
    | nonterminal hu hn => exact addNonterminal?_eq_some_iff.mpr ⟨_, rfl, hu, hn, rfl⟩
    | start hc => exact setStart?_eq_some_iff.mpr ⟨_, rfl, hc, rfl⟩
    | firstBody hx hb hn =>
      rw [← appendRule_of_not_mem hn]
      exact addProduction?_eq_some_iff.mpr ⟨_, _, rfl, hx, body?_text hg.usable hb, rfl⟩
    | nextBody hx hb hgroup =>
      rw [← appendRule_group (hg.notMem_before hgroup), ← hgroup]
      exact addProduction?_eq_some_iff.mpr ⟨_, _, rfl, hx, body?_text hg.usable hb, rfl⟩

theorem WellFormed.edit_eq_iff (hg : g.WellFormed) {e : Edit} :
    g.edit e = (true, g') ↔ g.Gains e g' := by
  rw [← hg.outcome?_eq_some_iff, Grammar.edit]
  cases e.outcome? g <;> simp

theorem edit_rejected {e : Edit} (h : g.edit e = (false, g')) : g' = g := by
  rw [Grammar.edit] at h
  cases ho : e.outcome? g with
  | none =>
    rw [ho] at h
    exact (Prod.mk.inj h).2.symm
  | some g₁ =>
    rw [ho] at h
    cases h

/-- **The contract of editing.** After any run of edits, with values of any kind, the symbols are
distinct and fit to be declared, the start is a nonterminal, and every group is for a nonterminal
and has bodies of declared symbols. A further edit either is rejected and changes nothing, or it
adds the one thing that it names. -/
theorem reached_by_gains (hg : g.Reachable) :
    (g.terminals.Nodup ∧ g.nonterminals.Nodup ∧ ∀ c ∈ g.terminals, c ∉ g.nonterminals) ∧
      (∀ c, c ∈ g.terminals ∨ c ∈ g.nonterminals →
        Text.isBlank c = false ∧ c ≠ 'ε' ∧ c ∉ ['{', '}', ',', '|']) ∧
      (∀ c, g.start = some c → c ∈ g.nonterminals) ∧
      (g.rules.map Prod.fst).Nodup ∧
      (∀ r ∈ g.rules, r.1 ∈ g.nonterminals ∧ r.2 ≠ [] ∧ ∀ b ∈ r.2, b.text = ['ε'] ∨
        b.text ≠ [] ∧ ∀ c ∈ b.text, c ∈ g.terminals ∨ c ∈ g.nonterminals) ∧
      ∀ e g', (g.edit e = (true, g') ↔ g.Gains e g') ∧ (g.edit e = (false, g') → g' = g) := by
  have hw := hg.wellFormed
  refine ⟨⟨hw.terminals_nodup, hw.nonterminals_nodup, hw.disjoint⟩,
    fun c hc => Symbol.isUsable_iff.mp (hw.usable c (declares_iff.mpr hc)),
    hw.start_mem, hw.keys_nodup, fun r hr => ?_, fun e g' => ⟨hw.edit_eq_iff, edit_rejected⟩⟩
  refine ⟨hw.keys_mem r.1 (List.mem_map_of_mem hr), hw.bodies_ne_nil r hr, fun b hb => ?_⟩
  rcases formText_cases b with ⟨-, ht⟩ | ⟨hne, ht⟩
  · exact .inl ht
  · rw [ht]
    exact .inr ⟨hne, fun c hc => declares_iff.mp (hw.declared r hr b hb c hc)⟩

/-- A grammar made by edits of which some are rejected. -/
def sample : Grammar :=
  afterEdits {} [.terminal (.text ['a']), .terminal (.int 5), .nonterminal (.text ['S']),
    .terminal (.text ['S']), .start (.text ['a']), .nonterminal (.text ['T']),
    .production (.text ['S']) (.text ['ε']), .production (.text ['T']) (.text ['b']),
    .production (.text ['T']) (.text ['T', 'S'])]

/-- The second body of a group goes behind the first, before the group of another symbol. -/
theorem reached_by_gains_sample :
    sample = ⟨['a'], ['S', 'T'], none, [('S', [[]]), ('T', [['T', 'S']])]⟩ ∧
      sample.Gains (.production (.text ['S']) (.text ['a', 'S']))
        ⟨['a'], ['S', 'T'], none, [('S', [[], ['a', 'S']]), ('T', [['T', 'S']])]⟩ ∧
      ∀ g', ¬sample.Gains (.production (.text ['S']) (.text ['a', 'ε'])) g' := by
  have hcontract := (reached_by_gains (g := sample) (Reachable.empty.afterEdits _)).2.2.2.2.2
  refine ⟨by decide, (hcontract _ _).1.mp (by decide), fun g' h => ?_⟩
  have he : sample.edit (.production (.text ['S']) (.text ['a', 'ε'])) = (false, sample) := by decide
  rw [(hcontract _ _).1.mpr h] at he
  cases he

end FormalGrammar.Grammar
