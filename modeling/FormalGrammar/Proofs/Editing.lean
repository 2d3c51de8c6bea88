import FormalGrammar.Grammar.Edit
import Mathlib.Data.List.Nodup

/-!
# Grammars made by editing

What each accepted edit does, in one equivalence per edit; from it, that every edit keeps
`WellFormed` (`WellFormed.edit`), and that a grammar is well formed after any run of edits
that begins with the empty grammar (`Reachable.wellFormed`). The edits of a run may be
accepted or rejected, and may name values of any kind.
-/

namespace FormalGrammar

/-- The grammars that some run of edits makes of the empty grammar. -/
inductive Grammar.Reachable : Grammar → Prop
  | empty : Reachable {}
  | edit {g : Grammar} (h : Reachable g) (e : Edit) : Reachable (g.edit e).2

namespace Grammar

/-- The grammar after a run of edits, accepted or rejected. -/
def afterEdits (g : Grammar) (es : List Edit) : Grammar := es.foldl (fun g e => (g.edit e).2) g

theorem Reachable.afterEdits {g : Grammar} (h : Reachable g) (es : List Edit) :
    Reachable (g.afterEdits es) := by
  induction es generalizing g with
  | nil => exact h
  | cons e es ih => exact ih (h.edit e)

/-! ## What an accepted edit does -/

theorem declares_iff {g : Grammar} {c : Char} :
    g.declares c = true ↔ c ∈ g.terminals ∨ c ∈ g.nonterminals := by
  simp [declares]

theorem addTerminal?_eq_some_iff {g g' : Grammar} {s : Text} :
    g.addTerminal? s = some g' ↔
      ∃ c, s = [c] ∧ Symbol.isUsable c = true ∧ g.declares c = false ∧
        g' = { g with terminals := g.terminals ++ [c] } := by
  simp only [addTerminal?, bind, Option.bind_eq_some_iff, Symbol.ofText?_eq_some_iff]
  constructor
  · rintro ⟨c, ⟨hs, hu⟩, h⟩
    split at h
    · cases h
    · next hd => exact ⟨c, hs, hu, by simpa using hd, by simpa using h.symm⟩
  · rintro ⟨c, hs, hu, hd, rfl⟩
    exact ⟨c, ⟨hs, hu⟩, by simp [hd]⟩

theorem addNonterminal?_eq_some_iff {g g' : Grammar} {s : Text} :
    g.addNonterminal? s = some g' ↔
      ∃ c, s = [c] ∧ Symbol.isUsable c = true ∧ g.declares c = false ∧
        g' = { g with nonterminals := g.nonterminals ++ [c] } := by
  simp only [addNonterminal?, bind, Option.bind_eq_some_iff, Symbol.ofText?_eq_some_iff]
  constructor
  · rintro ⟨c, ⟨hs, hu⟩, h⟩
    split at h
    · cases h
    · next hd => exact ⟨c, hs, hu, by simpa using hd, by simpa using h.symm⟩
  · rintro ⟨c, hs, hu, hd, rfl⟩
    exact ⟨c, ⟨hs, hu⟩, by simp [hd]⟩

theorem nonterminal?_eq_some_iff {g : Grammar} {s : Text} {x : Char} :
    g.nonterminal? s = some x ↔ s = [x] ∧ x ∈ g.nonterminals := by
  unfold nonterminal?
  split
  · next c =>
    by_cases hc : c ∈ g.nonterminals
    · simp only [List.contains_eq_mem, hc, decide_true, ↓reduceIte, Option.some.injEq,
        List.cons.injEq, and_true]
      exact ⟨fun h => ⟨h, h ▸ hc⟩, fun h => h.1⟩
    · simp only [List.contains_eq_mem, hc, decide_false, Bool.false_eq_true, ↓reduceIte,
        reduceCtorEq, List.cons.injEq, and_true, false_iff, not_and]
      rintro rfl
      exact hc
  · next h =>
    simp only [reduceCtorEq, false_iff, not_and]
    intro hs
    exact absurd hs (h x)

theorem setStart?_eq_some_iff {g g' : Grammar} {s : Text} :
    g.setStart? s = some g' ↔
      ∃ c, s = [c] ∧ c ∈ g.nonterminals ∧ g' = { g with start := some c } := by
  simp only [setStart?, Option.map_eq_some_iff, nonterminal?_eq_some_iff]
  constructor
  · rintro ⟨c, ⟨hs, hc⟩, rfl⟩
    exact ⟨c, hs, hc, rfl⟩
  · rintro ⟨c, hs, hc, rfl⟩
    exact ⟨c, ⟨hs, hc⟩, rfl⟩

theorem body?_eq_some_iff {g : Grammar} {s : Text} {body : Form} :
    g.body? s = some body ↔
      s = [Symbol.epsilon] ∧ body = [] ∨
      s ≠ [Symbol.epsilon] ∧ s ≠ [] ∧ (∀ c ∈ s, g.declares c = true) ∧ body = s := by
  unfold body?
  by_cases he : s = [Symbol.epsilon]
  · simp only [he, ↓reduceIte, Option.some.injEq, true_and, ne_eq, not_true_eq_false, false_and,
      or_false]
    exact eq_comm
  · by_cases hs : s = []
    · simp [hs]
    · simp only [he, ↓reduceIte, false_and, ne_eq, not_false_eq_true, hs, true_and, false_or,
        Bool.and_eq_true, Bool.not_eq_true', List.isEmpty_eq_false_iff, List.all_eq_true]
      split
      · next h => exact ⟨fun e => ⟨h, by simpa using e.symm⟩, fun e => by simp [e.2]⟩
      · next h => exact ⟨fun e => (by cases e), fun e => absurd e.1 h⟩

theorem addProduction?_eq_some_iff {g g' : Grammar} {lhs rhs : Text} :
    g.addProduction? lhs rhs = some g' ↔
      ∃ x body, lhs = [x] ∧ x ∈ g.nonterminals ∧ g.body? rhs = some body ∧
        g' = { g with rules := appendRule x body g.rules } := by
  simp only [addProduction?, bind, Option.bind_eq_some_iff, nonterminal?_eq_some_iff, pure,
    Option.some.injEq]
  constructor
  · rintro ⟨x, ⟨hl, hx⟩, body, hb, rfl⟩
    exact ⟨x, body, hl, hx, hb, rfl⟩
  · rintro ⟨x, body, hl, hx, hb, rfl⟩
    exact ⟨x, ⟨hl, hx⟩, body, hb, rfl⟩

/-! ## Appending a rule -/

/-- A group after a body has been appended for `x`: an old one, or that of `x` with the body. -/
theorem mem_appendRule {x : Char} {body : Form} {rules : List (Char × List Form)}
    {r : Char × List Form} (h : r ∈ appendRule x body rules) :
    r ∈ rules ∨ r.1 = x ∧
      ∃ bodies, r.2 = bodies ++ [body] ∧ ∀ b ∈ bodies, ∃ r' ∈ rules, b ∈ r'.2 := by
  induction rules with
  | nil =>
    simp only [appendRule, List.mem_singleton] at h
    exact .inr ⟨by rw [h], [], by rw [h]; rfl, by simp⟩
  | cons p rest ih =>
    obtain ⟨y, bodies⟩ := p
    simp only [appendRule] at h
    split at h
    · next hy =>
      rcases List.mem_cons.mp h with rfl | h
      · exact .inr ⟨hy, bodies, rfl, fun b hb => ⟨(y, bodies), List.mem_cons_self, hb⟩⟩
      · exact .inl (List.mem_cons_of_mem _ h)
    · rcases List.mem_cons.mp h with rfl | h
      · exact .inl List.mem_cons_self
      · rcases ih h with h | ⟨hx, bs, hbs, hold⟩
        · exact .inl (List.mem_cons_of_mem _ h)
        · refine .inr ⟨hx, bs, hbs, fun b hb => ?_⟩
          obtain ⟨r', hr', hb'⟩ := hold b hb
          exact ⟨r', List.mem_cons_of_mem _ hr', hb'⟩

theorem map_fst_appendRule (x : Char) (body : Form) (rules : List (Char × List Form)) :
    (appendRule x body rules).map Prod.fst =
      if x ∈ rules.map Prod.fst then rules.map Prod.fst else rules.map Prod.fst ++ [x] := by
  induction rules with
  | nil => simp [appendRule]
  | cons p rest ih =>
    obtain ⟨y, bodies⟩ := p
    simp only [appendRule]
    by_cases hy : y = x
    · simp [hy]
    · have hx : x ≠ y := fun h => hy h.symm
      simp only [hy, ↓reduceIte, List.map_cons, ih, List.mem_cons, hx, false_or]
      split <;> rfl

theorem appendRule_of_not_mem {x : Char} {rules : List (Char × List Form)}
    (h : x ∉ rules.map Prod.fst) (body : Form) :
    appendRule x body rules = rules ++ [(x, [body])] := by
  induction rules with
  | nil => rfl
  | cons p rest ih =>
    simp only [List.map_cons, List.mem_cons, not_or] at h
    have hx : p.1 ≠ x := fun e => h.1 e.symm
    simp [appendRule, hx, ih h.2]

theorem appendRule_group {x : Char} {rules : List (Char × List Form)}
    (h : x ∉ rules.map Prod.fst) (bodies : List Form) (body : Form)
    (after : List (Char × List Form)) :
    appendRule x body (rules ++ (x, bodies) :: after) = rules ++ (x, bodies ++ [body]) :: after := by
  induction rules with
  | nil => simp [appendRule]
  | cons p rest ih =>
    simp only [List.map_cons, List.mem_cons, not_or] at h
    have hx : p.1 ≠ x := fun e => h.1 e.symm
    simp [appendRule, hx, ih h.2]

theorem lookup_appendRule (x y : Char) (body : Form) (rules : List (Char × List Form)) :
    (appendRule x body rules).lookup y =
      if y = x then some ((rules.lookup x).getD [] ++ [body]) else rules.lookup y := by
  induction rules with
  | nil =>
    by_cases hy : y = x
    · simp [appendRule, hy]
    · simp [appendRule, hy, List.lookup_cons, beq_false_of_ne hy]
  | cons r rules ih =>
    obtain ⟨z, bodies⟩ := r
    rw [appendRule]
    by_cases hz : z = x
    · subst hz
      by_cases hy : y = z
      · simp [hy]
      · simp [hy, List.lookup_cons, beq_false_of_ne hy]
    · have hx : x ≠ z := fun e => hz e.symm
      rw [if_neg hz, List.lookup_cons, ih, List.lookup_cons, List.lookup_cons, beq_false_of_ne hx]
      by_cases hy : y = z
      · simp [hy, hz]
      · simp [beq_false_of_ne hy]

theorem rulesFor_appendRule (g : Grammar) (x y : Char) (body : Form) :
    rulesFor { g with rules := appendRule x body g.rules } y =
      if y = x then g.rulesFor x ++ [body] else g.rulesFor y := by
  rw [rulesFor, lookup_appendRule]
  split <;> rfl

/-! ## What editing keeps -/

namespace WellFormed

theorem empty : WellFormed {} where
  terminals_nodup := List.nodup_nil
  nonterminals_nodup := List.nodup_nil
  disjoint := by simp
  usable := by simp [declares]
  start_mem := by simp
  keys_nodup := List.nodup_nil
  keys_mem := by simp
  bodies_ne_nil := by simp
  declared := by simp

variable {g g' : Grammar}

/-- What declaring further symbols leaves to show. -/
private theorem declare (h : g.WellFormed) (ts ns : List Char) (ht : (g.terminals ++ ts).Nodup)
    (hn : (g.nonterminals ++ ns).Nodup)
    (hd : ∀ c ∈ g.terminals ++ ts, c ∉ g.nonterminals ++ ns)
    (hu : ∀ c ∈ ts ++ ns, Symbol.isUsable c = true) :
    WellFormed { g with terminals := g.terminals ++ ts, nonterminals := g.nonterminals ++ ns } where
  terminals_nodup := ht
  nonterminals_nodup := hn
  disjoint := hd
  usable c hc := by
    simp only [declares_iff, List.mem_append] at hc
    rcases hc with (hc | hc) | (hc | hc)
    · exact h.usable c (declares_iff.mpr (.inl hc))
    · exact hu c (List.mem_append_left _ hc)
    · exact h.usable c (declares_iff.mpr (.inr hc))
    · exact hu c (List.mem_append_right _ hc)
  start_mem c hc := List.mem_append_left _ (h.start_mem c hc)
  keys_nodup := h.keys_nodup
  keys_mem x hx := List.mem_append_left _ (h.keys_mem x hx)
  bodies_ne_nil := h.bodies_ne_nil
  declared r hr b hb c hc := by
    rcases declares_iff.mp (h.declared r hr b hb c hc) with hc | hc
    · exact declares_iff.mpr (.inl (List.mem_append_left _ hc))
    · exact declares_iff.mpr (.inr (List.mem_append_left _ hc))

theorem addTerminal (h : g.WellFormed) {s : Text} (hs : g.addTerminal? s = some g') :
    g'.WellFormed := by
  obtain ⟨c, -, hu, hd, rfl⟩ := addTerminal?_eq_some_iff.mp hs
  have hc : c ∉ g.terminals ∧ c ∉ g.nonterminals := by
    simpa [declares] using hd
  have ht : (g.terminals ++ [c]).Nodup := by
    simpa using List.Nodup.concat hc.1 h.terminals_nodup
  have hw := h.declare [c] [] ht (by simpa using h.nonterminals_nodup) ?_ (by simpa using hu)
  · simpa using hw
  · intro d hm
    rw [List.append_nil]
    rcases List.mem_append.mp hm with hm | hm
    · exact h.disjoint d hm
    · rw [List.mem_singleton.mp hm]
      exact hc.2

theorem addNonterminal (h : g.WellFormed) {s : Text} (hs : g.addNonterminal? s = some g') :
    g'.WellFormed := by
  obtain ⟨c, -, hu, hd, rfl⟩ := addNonterminal?_eq_some_iff.mp hs
  have hc : c ∉ g.terminals ∧ c ∉ g.nonterminals := by
    simpa [declares] using hd
  have hn : (g.nonterminals ++ [c]).Nodup := by
    simpa using List.Nodup.concat hc.2 h.nonterminals_nodup
  have hw := h.declare [] [c] (by simpa using h.terminals_nodup) hn ?_ (by simpa using hu)
  · simpa using hw
  · intro d hm hn
    rw [List.append_nil] at hm
    rcases List.mem_append.mp hn with hn | hn
    · exact h.disjoint d hm hn
    · exact hc.1 (List.mem_singleton.mp hn ▸ hm)

theorem setStart (h : g.WellFormed) {s : Text} (hs : g.setStart? s = some g') :
    g'.WellFormed := by
  obtain ⟨c, -, hc, rfl⟩ := setStart?_eq_some_iff.mp hs
  refine { h with start_mem := fun d hd => ?_ }
  rw [← Option.some.inj hd]
  exact hc

theorem addProduction (h : g.WellFormed) {lhs rhs : Text}
    (hs : g.addProduction? lhs rhs = some g') : g'.WellFormed := by
  obtain ⟨x, body, -, hx, hb, rfl⟩ := addProduction?_eq_some_iff.mp hs
  have hbody : ∀ c ∈ body, g.declares c = true := by
    rcases body?_eq_some_iff.mp hb with ⟨-, rfl⟩ | ⟨-, -, hd, rfl⟩
    · simp
    · exact hd
  have hkeys := map_fst_appendRule x body g.rules
  refine { h with
    keys_nodup := ?_
    keys_mem := fun y hy => ?_
    bodies_ne_nil := fun r hr => ?_
    declared := fun r hr b hbr c hc => ?_ }
  · show ((appendRule x body g.rules).map Prod.fst).Nodup
    rw [hkeys]
    split
    · exact h.keys_nodup
    · next hn => simpa using List.Nodup.concat hn h.keys_nodup
  · change y ∈ (appendRule x body g.rules).map Prod.fst at hy
    rw [hkeys] at hy
    split at hy
    · exact h.keys_mem y hy
    · rcases List.mem_append.mp hy with hy | hy
      · exact h.keys_mem y hy
      · exact List.mem_singleton.mp hy ▸ hx
  · rcases mem_appendRule hr with hr | ⟨-, bodies, e, -⟩
    · exact h.bodies_ne_nil r hr
    · simp [e]
  · show g.declares c = true
    rcases mem_appendRule hr with hr | ⟨-, bodies, e, hold⟩
    · exact h.declared r hr b hbr c hc
    · rw [e] at hbr
      rcases List.mem_append.mp hbr with hbr | hbr
      · obtain ⟨r', hr', hb'⟩ := hold b hbr
        exact h.declared r' hr' b hb' c hc
      · exact hbody c (List.mem_singleton.mp hbr ▸ hc)

/-- **Every edit keeps the invariant**, accepted or not. -/
theorem edit (h : g.WellFormed) (e : Edit) : (g.edit e).2.WellFormed := by
  have accepted : ∀ g', e.outcome? g = some g' → g'.WellFormed := by
    intro g' he
    unfold Edit.outcome? at he
    split at he
    · exact h.addTerminal he
    · exact h.addNonterminal he
    · exact h.setStart he
    · exact h.addProduction he
    · cases he
  unfold Grammar.edit
  cases he : e.outcome? g with
  | none => exact h
  | some g' => exact accepted g' he

end WellFormed

theorem Reachable.wellFormed {g : Grammar} (h : Reachable g) : g.WellFormed := by
  induction h with
  | empty => exact WellFormed.empty
  | edit _ e ih => exact ih.edit e

end Grammar

end FormalGrammar
