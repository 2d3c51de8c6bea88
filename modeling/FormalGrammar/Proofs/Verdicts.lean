import FormalGrammar.Proofs.Analysing
import FormalGrammar.Proofs.Editing
import FormalGrammar.Proofs.Exploring

/-!
# What the verdicts mean

The search finds a path exactly when the word is derived within the bound
(`search_path_isSome_iff`): whatever the rules of the search leave out cannot become the word
in the rewrites that are left. If besides nothing was left out because of the bound, then the
word is not derived at all (`not_derives_of_not_cut`).

Main statements: `Analysis.run_member_iff` for the verdict `member`, and
`Analysis.not_derives_of_run_nonMember` for the verdict `nonMember`.
-/

namespace FormalGrammar

open Search

namespace Grammar

variable {g : Grammar}

/-- "The word has no derivation of a length that is allowed at this depth" is respected by the
rules of the search, if a derivation that is allowed stays so after its first rewrite. -/
theorem givesUp_of_allowed (hg : g.WellFormed) (w : Form) (allowed : Nat → Nat → Prop)
    (hlater : ∀ d d' n, d ≤ d' → allowed d' n → allowed d n)
    (hstep : ∀ d n, allowed d (n + 1) → allowed (d + 1) n) :
    (g.query w).GivesUp fun d f => ∀ n, allowed d n → ¬ g.Derives n f w where
  short d f hs n _ hd := Nat.not_lt.mpr hd.minLength_le_length hs
  later d d' f hle h n hn := h n (hlater d d' n hle hn)
  expand d f hw h n hn hd := by
    cases n with
    | zero => exact hw hd.eq_of_zero
    | succ n =>
      obtain ⟨r, hr, hd'⟩ := (derives_succ_iff hg).mp hd
      exact h r hr n (hstep d n hn) hd'

/-- No derivation of the word from the form `f` at the depth `d` stays within the bound. -/
def OutOfReach (g : Grammar) (w : Form) (bound d : Nat) (f : Form) : Prop :=
  ∀ n, d + n ≤ bound → ¬ g.Derives n f w

theorem givesUp_outOfReach (hg : g.WellFormed) (w : Form) (bound : Nat) :
    (g.query w).GivesUp (g.OutOfReach w bound) :=
  givesUp_of_allowed hg w (fun d n => d + n ≤ bound) (fun d d' n hle h => by omega)
    (fun d n h => by omega)

/-- Within the bound, a form that is too long cannot shrink to the word in the rewrites left. -/
theorem bounds_outOfReach (w : Form) (bound : Nat) :
    (g.query w).Bounds bound (g.OutOfReach w bound) where
  deep f n hn _ := by omega
  long d left f hd hl n hn hder := by
    have hle := hder.length_le
    have hw : (g.query w).word.length = w.length := rfl
    omega

/-- **The search finds a path exactly when the word is derived within the bound.** -/
theorem search_path_isSome_iff (hg : g.WellFormed) (w : Form) (bound : Nat) :
    (g.search w bound).path.isSome = true ↔ ∃ n ≤ bound, g.Derives n g.startForm w := by
  constructor
  · intro h
    obtain ⟨rs, hrs⟩ := Option.isSome_iff_exists.mp h
    obtain ⟨hl, hlen, -⟩ := explore_leads (bound + 1) 0 g.startForm ∅ rs hrs
    exact ⟨rs.length, Nat.le_of_lt_succ hlen, hl.derives hg⟩
  · rintro ⟨n, hn, hd⟩
    by_contra hnone
    rw [Option.not_isSome_iff_eq_none] at hnone
    have hup := (explore_gives_up (givesUp_outOfReach hg w bound) (bound + 1) 0 g.startForm ∅
      (Nat.zero_add _) upholds_empty fun _ => bounds_outOfReach w bound).2 hnone
    exact hup n (by omega) hd

/-- **A search that has failed without being cut** has shown that nothing derives the word. -/
theorem not_derives_of_not_cut (hg : g.WellFormed) {w : Form} {bound : Nat}
    (hp : (g.search w bound).path = none) (hc : (g.search w bound).cut = false) (n : Nat) :
    ¬ g.Derives n g.startForm w := by
  have hR := givesUp_of_allowed hg w (fun _ _ => True) (fun _ _ _ _ _ => trivial)
    fun _ _ _ => trivial
  have hcut : (g.search w bound).cut = true →
      (g.query w).Bounds bound fun _ f => ∀ n, True → ¬ g.Derives n f w := by
    intro h
    rw [hc] at h
    cases h
  exact (explore_gives_up hR (bound + 1) 0 g.startForm ∅ (Nat.zero_add _) upholds_empty hcut).2
    hp n trivial

/-- **A search that was not cut decides** whether the word is derived at all. -/
theorem search_path_isSome_iff_of_not_cut (hg : g.WellFormed) {w : Form} {bound : Nat}
    (hc : (g.search w bound).cut = false) :
    (g.search w bound).path.isSome = true ↔ ∃ n, g.Derives n g.startForm w := by
  constructor
  · intro h
    obtain ⟨n, -, hd⟩ := (search_path_isSome_iff hg w bound).mp h
    exact ⟨n, hd⟩
  · rintro ⟨n, hd⟩
    by_contra hnone
    exact not_derives_of_not_cut hg (Option.not_isSome_iff_eq_none.mp hnone) hc n hd

end Grammar

/-! ## Two grammars -/

namespace Grammar

/-- `S -> SS | a | ε`: every power of `a`, by derivations that grow, shrink and repeat. -/
def doubling : Grammar :=
  afterEdits {} [.terminal (.text ['a']), .nonterminal (.text ['S']), .start (.text ['S']),
    .production (.text ['S']) (.text ['S', 'S']), .production (.text ['S']) (.text ['a']),
    .production (.text ['S']) (.text ['ε'])]

/-- `S -> AA` and `A -> a | b`: the four words of length two, each in two ways. -/
def pairs : Grammar :=
  afterEdits {} [.terminal (.text ['a']), .terminal (.text ['b']), .nonterminal (.text ['S']),
    .nonterminal (.text ['A']), .start (.text ['S']),
    .production (.text ['S']) (.text ['A', 'A']), .production (.text ['A']) (.text ['a']),
    .production (.text ['A']) (.text ['b'])]

theorem doubling_reachable : doubling.Reachable := Reachable.empty.afterEdits _

theorem pairs_reachable : pairs.Reachable := Reachable.empty.afterEdits _

end Grammar

/-! ## Verdicts -/

theorem Search.Visit.verdict_eq_member_iff (v : Visit) :
    v.verdict = .member ↔ v.path.isSome = true := by
  unfold Visit.verdict
  cases v.path.isSome <;> cases v.cut <;> simp

theorem Search.Visit.verdict_eq_nonMember_iff (v : Visit) :
    v.verdict = .nonMember ↔ v.path = none ∧ v.cut = false := by
  unfold Visit.verdict
  cases v.path <;> cases v.cut <;> simp

theorem Search.Visit.verdict_eq_inconclusive_iff (v : Visit) :
    v.verdict = .inconclusive ↔ v.path = none ∧ v.cut = true := by
  unfold Visit.verdict
  cases v.path <;> cases v.cut <;> simp

theorem Search.Visit.verdict_cases (v : Visit) :
    v.verdict = .member ∨ v.verdict = .nonMember ∨ v.verdict = .inconclusive := by
  unfold Visit.verdict
  cases v.path.isSome <;> cases v.cut <;> simp

namespace Analysis

open Grammar

/-- **Member means derivable within the bound.** The analysis of any word in a valid grammar
answers if the log is open, and an answer is `member` exactly when at most `bound` rewrites
lead from the start to the word. -/
theorem run_member_iff {g : Grammar} (hg : g.Reachable) (hv : g.isValid = true) (bound : Nat)
    (word : Text) (j : Journal) :
    (j.IsOpen → ∃ r, (run { grammar := g } bound word j).1 = .ok r) ∧
      ∀ r, (run { grammar := g } bound word j).1 = .ok r →
        (r.verdict = .member ↔ ∃ n ≤ bound, g.Derives n g.startForm word) := by
  refine ⟨fun hj => ⟨_, run_of_isOpen hv bound word hj⟩, fun r hr => ?_⟩
  rw [result_of_isValid hv hr, verdict_ofVisit, Visit.verdict_eq_member_iff]
  exact search_path_isSome_iff hg.wellFormed word bound

/-- The word `aa` is found in three rewrites, and the log is open. -/
theorem run_member_iff_doubling :
    (∃ r, (run { grammar := doubling } 3 ['a', 'a']
        (some { now := ⟨2024, 2, 29, 13, 5, 9, 78⟩ })).1 = .ok r ∧ r.verdict = .member) ∧
      ∃ n ≤ 3, doubling.Derives n doubling.startForm ['a', 'a'] := by
  have hv : doubling.isValid = true := by decide
  obtain ⟨answers, hiff⟩ := run_member_iff doubling_reachable hv 3 ['a', 'a']
    (some { now := ⟨2024, 2, 29, 13, 5, 9, 78⟩ })
  have hj : Journal.IsOpen (some { now := ⟨2024, 2, 29, 13, 5, 9, 78⟩ }) := by
    rintro l ⟨⟩
    exact ⟨rfl, rfl, _, rfl⟩
  obtain ⟨r, hr⟩ := answers hj
  have hm : r.verdict = .member := by
    rw [result_of_isValid hv hr]
    decide
  exact ⟨⟨r, hr, hm⟩, (hiff r hr).mp hm⟩

/-- **Non-member means not derivable at all.** Whatever the log, and even if the rules cannot be
looked up, the answer `nonMember` is given only where nothing was left out because of the bound
and no number of rewrites leads from the start to the word. -/
theorem not_derives_of_run_nonMember {b : RuleBook} (hg : b.grammar.Reachable) {bound : Nat}
    {word : Text} {j : Journal} {r : Result} (hr : (run b bound word j).1 = .ok r)
    (hn : r.verdict = .nonMember) :
    (b.grammar.search word bound).cut = false ∧
      ∀ n, ¬ b.grammar.Derives n b.grammar.startForm word := by
  rcases result_of_run hr with rfl | ⟨f, rfl⟩ | rfl
  · cases hn
  · cases hn
  · rw [verdict_ofVisit, Visit.verdict_eq_nonMember_iff] at hn
    exact ⟨hn.2, not_derives_of_not_cut hg.wellFormed hn.1 hn.2⟩

/-- No number of rewrites leads to `aS` in the grammar of pairs. -/
theorem not_derives_of_run_nonMember_pairs :
    (run { grammar := pairs } 3 ['a', 'S'] none).1 =
        .ok (Result.ofVisit ['a', 'S'] pairs.startForm (pairs.search ['a', 'S'] 3)) ∧
      (Result.ofVisit ['a', 'S'] pairs.startForm (pairs.search ['a', 'S'] 3)).verdict =
        .nonMember ∧
      ∀ n, ¬ pairs.Derives n pairs.startForm ['a', 'S'] := by
  have hr := run_of_isOpen (g := pairs) (by decide) 3 ['a', 'S'] Journal.isOpen_none
  exact ⟨hr, by decide, (not_derives_of_run_nonMember pairs_reachable hr (by decide)).2⟩

end Analysis

end FormalGrammar
