import FormalGrammar.Grammar.Build
import FormalGrammar.Proofs.Displaying
import FormalGrammar.Proofs.ReadBack

/-!
# Building a grammar from its parts

A grammar that editing made is built again from the lists of its symbols, its start and its rules
by replaying the edits (`Grammar.build_parts`). Each edit of the replay is accepted, because the
parts that it needs stand before it; so the state after any number of edits is the grammar with
just as many of the parts.
-/

namespace FormalGrammar

namespace Grammar

variable {g g' : Grammar}

/-- An edit that is accepted can be demanded. -/
theorem demand_of_outcome? {e : Edit} (h : e.outcome? g = some g') : g.demand e = .ok g' := by
  obtain ⟨f, hf⟩ := (Edit.exists_words (Edit.hasText_of_outcome? h)).2
  simp only [demand, hf, h]

/-- The edits for the items of a list are made one after the other. -/
theorem demandEach_list {α : Type} {edit : Value → Edit} (item : α → Value)
    (state : List α → Grammar) (xs : List α)
    (h : ∀ before x after, xs = before ++ x :: after →
      (edit (item x)).outcome? (state before) = some (state (before ++ [x]))) :
    demandEach edit (state []) (.list (xs.map item)) = .ok (state xs) := by
  simp only [demandEach, Value.members, List.foldlM_map]
  exact foldlM_eq_ok state xs fun before x after he => demand_of_outcome? (h before x after he)

/-! ## The parts -/

def symbolValues (cs : List Char) : Value := .list (cs.map fun c => .text [c])

def startValue : Option Char → Value
  | some c => .text [c]
  | none => .absent

def bodyValues (bodies : List Form) : Value := .list (bodies.map fun b => .text b.text)

def ruleValues (rules : List (Char × List Form)) : List (Value × Value) :=
  rules.map fun r => (.text [r.1], bodyValues r.2)

/-! ## Building -/

theorem demandEach_terminals (hg : g.WellFormed) :
    demandEach .terminal {} (symbolValues g.terminals) = .ok { terminals := g.terminals } :=
  demandEach_list (fun c => .text [c]) (fun cs => { terminals := cs }) g.terminals
    fun _ _ _ he => hg.addTerminal?_next he

theorem demandEach_nonterminals (hg : g.WellFormed) :
    demandEach .nonterminal { terminals := g.terminals } (symbolValues g.nonterminals) =
      .ok { terminals := g.terminals, nonterminals := g.nonterminals } :=
  demandEach_list (fun c => .text [c])
    (fun cs => { terminals := g.terminals, nonterminals := cs }) g.nonterminals
    fun _ _ _ he => hg.addNonterminal?_next he

theorem demandStart_startValue (hg : g.WellFormed) :
    demandStart { terminals := g.terminals, nonterminals := g.nonterminals } (startValue g.start) =
      .ok { g with rules := [] } := by
  cases hs : g.start with
  | none => simp [startValue, demandStart]
  | some c =>
    have hc : setStart? { terminals := g.terminals, nonterminals := g.nonterminals } [c] =
        some { terminals := g.terminals, nonterminals := g.nonterminals, start := some c } :=
      setStart?_eq_some_iff.mpr ⟨c, rfl, hg.start_mem c hs, rfl⟩
    exact demand_of_outcome? (e := .start (.text [c])) hc

/-- The bodies of one left-hand side are added behind the groups that are there. -/
theorem demandAlternatives_bodyValues (hg : g.WellFormed) {x : Char} (hx : x ∈ g.nonterminals)
    {bodies : List Form} (hb : ∀ b ∈ bodies, ∀ c ∈ b, g.declares c = true)
    (rules : List (Char × List Form)) :
    demandAlternatives { g with rules := rules } (.text [x]) (bodyValues bodies) =
      .ok { g with rules := regroup rules (bodies.map fun b => (x, b)) } := by
  refine demandEach_list (fun b : Form => .text b.text)
    (fun bs => { g with rules := regroup rules (bs.map fun b => (x, b)) }) bodies ?_
  intro before b after he
  have hbody : ∀ c ∈ b, g.declares c = true := hb b (by simp [he])
  rw [List.map_append, regroup_append]
  exact addProduction?_eq_some_iff.mpr
    ⟨x, b, rfl, hx, body?_text (g := { g with rules := _ }) hg.usable hbody, rfl⟩

theorem demandProductions_ruleValues (hg : g.WellFormed) :
    demandProductions { g with rules := [] } (.map (ruleValues g.rules)) = .ok g := by
  simp only [demandProductions, ruleValues, List.foldlM_map]
  refine foldlM_eq_ok (fun rules => { g with rules := rules }) g.rules fun before r after he => ?_
  have hr : r ∈ g.rules := by
    rw [he]
    exact List.mem_append_right _ List.mem_cons_self
  have hx : r.1 ∈ g.nonterminals := hg.keys_mem r.1 (List.mem_map_of_mem hr)
  have hkeys : ((before ++ [r]).map Prod.fst).Nodup := by
    have hall := hg.keys_nodup
    rw [he, List.append_cons, List.map_append] at hall
    exact (List.nodup_append.mp hall).1
  have hgroup : regroup before (r.2.map fun b => (r.1, b)) = before ++ [r] := by
    have hg' := regroup_productions hkeys (by simpa using hg.bodies_ne_nil r hr)
    simpa using hg'
  rw [demandAlternatives_bodyValues hg hx (hg.declared r hr), hgroup]

/-- **A grammar is built again from its parts**, with its symbols and rules in the same order. -/
theorem build_parts (hg : g.WellFormed) :
    build (symbolValues g.terminals) (symbolValues g.nonterminals) (startValue g.start)
      (.map (ruleValues g.rules)) = .ok g := by
  simp only [build, bind, Except.bind, demandEach_terminals hg, demandEach_nonterminals hg,
    demandStart_startValue hg, demandProductions_ruleValues hg]

end Grammar

end FormalGrammar
