import FormalGrammar.Proofs.Verdicts
import Mathlib.Data.List.Count

/-!
# What a cut shows

The search reports the bound as the reason of a failure where it goes beyond the bound, but also
where a form is too long to shrink to the word in the rewrites left. In both cases there is a
chain of rewrites that passes the bound and whose forms have a least yield that is not too long
(`explore_cut`): a form that is longer than the word and has a short least yield holds nullable
symbols, and to rewrite one of these by nullable symbols leaves the least yield as it is.

Where every body is a terminal or has two symbols at least, such a chain cannot pass twice the
length of the word, for each rewrite lengthens the form or makes a terminal. With that bound no
search is cut.

Main statements: `Analysis.prolongs_of_run_inconclusive`, `Analysis.run_decides`.
-/

namespace FormalGrammar

namespace Grammar

variable {g : Grammar} {k n : Nat} {f f' w : Form}

/-- A number of rewrites can be made one after the other, each in a form whose least yield is `k`
at most. -/
inductive Prolongs (g : Grammar) (k : Nat) : Nat → Form → Prop
  | zero (f : Form) : Prolongs g k 0 f
  | succ {n : Nat} {f f' : Form} : minLength g.nullable f ≤ k → g.Rewrites f f' →
      Prolongs g k n f' → Prolongs g k (n + 1) f

/-! ## Nullable symbols -/

/-- A form that is longer than its least yield holds a nullable symbol, which can be rewritten
without raising the least yield. -/
theorem exists_rewrites_of_minLength_lt (hg : g.WellFormed)
    (h : minLength g.nullable f < f.length) :
    ∃ f', g.Rewrites f f' ∧ minLength g.nullable f' = minLength g.nullable f := by
  obtain ⟨x, hx, hnull⟩ := List.countP_lt_length_iff.mp h
  replace hnull : x ∈ g.nullable := by simpa using hnull
  obtain ⟨before, after, rfl⟩ := List.append_of_mem hx
  obtain ⟨bodies, hr, body, hb, hbody⟩ := exists_body_of_mem_nullable hnull
  have hn : x ∈ g.nonterminals := hg.keys_mem x (List.mem_map_of_mem hr)
  refine ⟨_, .replace before x body after hn (mem_productions_iff.mpr ⟨bodies, hr, hb⟩), ?_⟩
  have hz : body.countP (fun c => !g.nullable.contains c) = 0 := by
    simpa [List.countP_eq_zero] using hbody
  have hc : g.nullable.contains x = true := by simpa using hnull
  simp only [minLength, List.countP_append, List.countP_cons, hz, hc, Bool.not_true,
    Bool.false_eq_true, ↓reduceIte, Nat.add_zero]

/-- Each of these rewrites takes one symbol away at most, and each symbol beyond `k` allows for
one. -/
theorem prolongs_of_long (hg : g.WellFormed) (hk : minLength g.nullable f ≤ k)
    (h : k + n ≤ f.length) : g.Prolongs k n f := by
  induction n generalizing f with
  | zero => exact .zero f
  | succ n ih =>
    obtain ⟨f', hr, hm⟩ := exists_rewrites_of_minLength_lt hg (f := f) (by omega)
    have hlen := hr.length_le
    exact .succ hk hr (ih (hm ▸ hk) (by omega))

/-! ## Cuts -/

open Search

/-- **Where the search was cut, a chain of rewrites passes the bound**, and no form before its last
has too long a least yield. -/
theorem explore_cut (hg : g.WellFormed) (left depth : Nat) (form : Form) (memo : Memo)
    (h : (explore (g.query w) left depth form memo).cut = true) :
    g.Prolongs w.length left form := by
  revert h
  refine explore_induct (q := g.query w)
    (P := fun left _ form _ v => v.cut = true → g.Prolongs w.length left form)
    (Q := fun left _ rs _ v => v.cut = true → ∃ r ∈ rs, g.Prolongs w.length left r.target)
    ?deep ?short ?long ?known ?found ?expanded ?nothing ?through ?next left depth form memo
  case deep => exact fun _ form _ _ => .zero form
  case short => exact fun _ _ _ _ _ => nofun
  case known => exact fun _ _ _ _ _ _ _ => nofun
  case found => exact fun _ _ _ _ _ => nofun
  case nothing => exact fun _ _ _ => nofun
  case long =>
    intro left depth form memo hs hl _
    have hl' : w.length + left < form.length := hl
    exact prolongs_of_long hg hs (by omega)
  case expanded =>
    intro left depth form memo v hs _ _ _ _ tried hc
    obtain ⟨r, hr, hp⟩ := tried hc
    exact .succ hs ((rewrites_iff hg).mpr ⟨r, hr, rfl⟩) hp
  case through =>
    intro left depth r rest memo v path _ _ visited hc
    exact ⟨r, List.mem_cons_self, visited hc⟩
  case next =>
    intro left depth r rest memo v v' _ _ visited _ tried hc
    rcases Bool.or_eq_true_iff.mp (show (v.cut || v'.cut) = true from hc) with hc | hc
    · exact ⟨r, List.mem_cons_self, visited hc⟩
    · obtain ⟨r', hr', hp⟩ := tried hc
      exact ⟨r', List.mem_cons_of_mem r hr', hp⟩

theorem search_cut (hg : g.WellFormed) {bound : Nat} (h : (g.search w bound).cut = true) :
    g.Prolongs w.length (bound + 1) g.startForm :=
  explore_cut hg (bound + 1) 0 g.startForm ∅ h

/-! ## Growing grammars -/

/-- Every body is a terminal or has at least two symbols. -/
def Growing (g : Grammar) : Prop :=
  ∀ p ∈ g.productions, (∃ a ∈ g.terminals, p.2 = [a]) ∨ 2 ≤ p.2.length

instance (g : Grammar) : Decidable g.Growing :=
  -- Left to itself, the search for an instance may try all characters for `a`.
  letI (p : Char × Form) : Decidable (∃ a ∈ g.terminals, p.2 = [a]) := List.decidableBEx _ _
  inferInstanceAs (Decidable (∀ p ∈ g.productions, (∃ a ∈ g.terminals, p.2 = [a]) ∨ 2 ≤ p.2.length))

/-- Length and number of terminals together. -/
def growth (g : Grammar) (f : Form) : Nat := f.length + f.countP g.terminals.contains

@[simp] theorem growth_append (f f' : Form) : g.growth (f ++ f') = g.growth f + g.growth f' := by
  simp only [growth, List.length_append, List.countP_append]
  omega

theorem growth_le (f : Form) : g.growth f ≤ 2 * f.length := by
  have hle : f.countP g.terminals.contains ≤ f.length := List.countP_le_length
  rw [growth]
  omega

/-- A nonterminal counts once. -/
theorem WellFormed.growth_cons (hg : g.WellFormed) {x : Char} (hx : x ∈ g.nonterminals) (f : Form) :
    g.growth (x :: f) = g.growth f + 1 := by
  have ht : x ∉ g.terminals := fun ht => hg.disjoint x ht hx
  simp [growth, ht, Nat.add_right_comm]

/-- A form with a nonterminal has fewer terminals than symbols. -/
theorem Rewrites.growth_lt_length (hr : g.Rewrites f f') (hg : g.WellFormed) :
    g.growth f < 2 * f.length := by
  cases hr with
  | replace before x body after hn hp =>
    have hb := g.growth_le before
    have ha := g.growth_le after
    rw [growth_append, hg.growth_cons hn, List.length_append, List.length_cons]
    omega

section

variable (h : g.Growing)

include h

theorem Growing.nullable_eq_nil : g.nullable = [] := by
  refine List.eq_nil_iff_forall_not_mem.mpr (nullable_induction fun x bodies hr b hb hp => ?_)
  rcases h (x, b) (mem_productions_iff.mpr ⟨bodies, hr, hb⟩) with ⟨a, -, rfl⟩ | hlen
  · exact hp a List.mem_cons_self
  · cases b with
    | nil => simp at hlen
    | cons c b => exact hp c List.mem_cons_self

theorem Growing.minLength_eq (f : Form) : minLength g.nullable f = f.length := by
  simp [minLength, h.nullable_eq_nil]

theorem Growing.two_le_growth {p : Char × Form} (hp : p ∈ g.productions) : 2 ≤ g.growth p.2 := by
  rcases h p hp with ⟨a, ha, he⟩ | hlen
  · simp [he, growth, ha]
  · exact Nat.le_trans hlen (Nat.le_add_right _ _)

/-- Every rewrite lengthens the form or puts a terminal in the place of a nonterminal. -/
theorem Growing.growth_lt (hg : g.WellFormed) (hr : g.Rewrites f f') :
    g.growth f < g.growth f' := by
  cases hr with
  | replace before x body after hn hp =>
    have hbody : 2 ≤ g.growth body := h.two_le_growth hp
    rw [growth_append, hg.growth_cons hn, growth_append, growth_append]
    omega

/-- **A chain cannot be prolonged for ever**: what it has grown by is bounded by twice the length
that its forms may have. -/
theorem Growing.growth_add_le (hg : g.WellFormed) (hp : g.Prolongs k (n + 1) f) :
    g.growth f + (n + 1) ≤ 2 * k := by
  induction n generalizing f with
  | zero =>
    cases hp with
    | succ hk hr _ =>
      have hlt := hr.growth_lt_length hg
      rw [h.minLength_eq] at hk
      omega
  | succ n ih =>
    cases hp with
    | succ _ hr hp =>
      have hlt := h.growth_lt hg hr
      have hle := ih hp
      omega

/-- **With twice the length of the word as the bound**, less one, no search is cut. -/
theorem Growing.not_cut (hg : g.WellFormed) {s : Char} (hs : g.start = some s)
    {bound : Nat} (hb : 2 * w.length - 1 ≤ bound) : (g.search w bound).cut = false := by
  by_contra hc
  rw [Bool.not_eq_false] at hc
  have hle := h.growth_add_le hg (search_cut hg hc)
  have hstart : g.startForm.length = 1 := by rw [startForm_of_start hs, List.length_singleton]
  have hgrowth : g.startForm.length ≤ g.growth g.startForm := Nat.le_add_right _ _
  omega

end

end Grammar

/-! ## Verdicts -/

namespace Analysis

open Grammar Search

/-- **Inconclusive means that a cut was needed.** The analysis of any word in a valid grammar
answers if the log is open. If an answer is `inconclusive`, then one rewrite more than the bound
can be made from the start, each in a form whose least yield is no longer than the word. Where no
such chain exists, the answer is `member` or `nonMember`. -/
theorem prolongs_of_run_inconclusive {g : Grammar} (hg : g.Reachable) (hv : g.isValid = true)
    (bound : Nat) (word : Text) (j : Journal) :
    (j.IsOpen → ∃ r, (run { grammar := g } bound word j).1 = .ok r) ∧
      ∀ r, (run { grammar := g } bound word j).1 = .ok r →
        (r.verdict = .inconclusive → g.Prolongs word.length (bound + 1) g.startForm) ∧
        (¬ g.Prolongs word.length (bound + 1) g.startForm →
          r.verdict = .member ∨ r.verdict = .nonMember) := by
  refine ⟨fun hj => ⟨_, run_of_isOpen hv bound word hj⟩, fun r hr => ?_⟩
  have hcut : (g.search word bound).cut = true →
      g.Prolongs word.length (bound + 1) g.startForm := search_cut hg.wellFormed
  rw [result_of_isValid hv hr, verdict_ofVisit]
  refine ⟨fun h => hcut ((Visit.verdict_eq_inconclusive_iff _).mp h).2, fun hnot => ?_⟩
  have hc : (g.search word bound).cut = false := by
    by_contra hc
    exact hnot (hcut (by simpa using hc))
  cases hp : (g.search word bound).path with
  | none => exact .inr ((Visit.verdict_eq_nonMember_iff _).mpr ⟨hp, hc⟩)
  | some rs => exact .inl ((Visit.verdict_eq_member_iff _).mpr (by rw [hp]; rfl))

/-- Ten rewrites do not show that `b` is no power of `a`: an eleventh could be made. -/
theorem prolongs_of_run_inconclusive_doubling :
    ∃ r, (run { grammar := doubling } 10 ['b'] none).1 = .ok r ∧ r.verdict = .inconclusive ∧
      doubling.Prolongs 1 11 doubling.startForm := by
  have hv : doubling.isValid = true := by decide
  have hr := run_of_isOpen hv 10 ['b'] Journal.isOpen_none
  have hverdict : (Result.ofVisit ['b'] doubling.startForm
      (doubling.search ['b'] 10)).verdict = .inconclusive := by decide
  exact ⟨_, hr, hverdict,
    ((prolongs_of_run_inconclusive doubling_reachable hv 10 ['b'] none).2 _ hr).1 hverdict⟩

/-- **Growing grammars are decided.** In a valid grammar in which every body is a terminal or has
at least two symbols, a bound of twice the length of the word, less one, is enough: the answer is
`member` if any number of rewrites leads from the start to the word, and `nonMember` if none
does. -/
theorem run_decides {g : Grammar} (hg : g.Reachable) (hv : g.isValid = true) (hgrow : g.Growing)
    (word : Text) {bound : Nat} (hb : 2 * word.length - 1 ≤ bound) (j : Journal) :
    (j.IsOpen → ∃ r, (run { grammar := g } bound word j).1 = .ok r) ∧
      ∀ r, (run { grammar := g } bound word j).1 = .ok r →
        (r.verdict = .member ↔ ∃ n, g.Derives n g.startForm word) ∧
        (r.verdict = .nonMember ↔ ∀ n, ¬ g.Derives n g.startForm word) ∧
        r.verdict ≠ .inconclusive := by
  refine ⟨fun hj => ⟨_, run_of_isOpen hv bound word hj⟩, fun r hr => ?_⟩
  obtain ⟨s, hs⟩ := start_of_isValid hv
  have hc := hgrow.not_cut hg.wellFormed hs hb
  have hderives := search_path_isSome_iff_of_not_cut hg.wellFormed hc
  rw [result_of_isValid hv hr, verdict_ofVisit, Visit.verdict_eq_member_iff,
    Visit.verdict_eq_nonMember_iff, Ne, Visit.verdict_eq_inconclusive_iff, hc]
  refine ⟨hderives, ?_, by simp⟩
  rw [← not_exists, ← hderives, Option.not_isSome_iff_eq_none]
  exact and_iff_left rfl

/-- A bound of three rewrites decides words of length two in the grammar of pairs. -/
theorem run_decides_pairs :
    2 * ['b', 'a'].length - 1 ≤ 3 ∧ pairs.Growing ∧
      ∃ r, (run { grammar := pairs } 3 ['b', 'a'] none).1 = .ok r ∧ r.verdict = .member ∧
        ∃ n, pairs.Derives n pairs.startForm ['b', 'a'] := by
  have hv : pairs.isValid = true := by decide
  have hgrow : pairs.Growing := by decide
  have hb : 2 * ['b', 'a'].length - 1 ≤ 3 := by decide
  obtain ⟨answers, hiff⟩ := run_decides pairs_reachable hv hgrow ['b', 'a'] hb none
  obtain ⟨r, hr⟩ := answers Journal.isOpen_none
  have hm : r.verdict = .member := by
    rw [result_of_isValid hv hr]
    decide
  exact ⟨hb, hgrow, r, hr, hm, (hiff r hr).1.mp hm⟩

end Analysis

end FormalGrammar
