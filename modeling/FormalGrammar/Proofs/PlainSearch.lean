import FormalGrammar.Proofs.Verdicts

/-!
# The search against the plain search

The plain search visits forms in the same order and stops at the same place, but leaves
nothing out and remembers nothing. The search finds the same path and takes a part of the
same steps, in the same order (`explore_plain`): what it skips cannot become the word in the
replacements that are left, so the plain search finds nothing there either.

Main statement: `Analysis.run_refines_plain`.
-/

namespace FormalGrammar

namespace Search

/-- What a plain search has found and the steps that it has taken. -/
structure Plain where
  path : Option (List Replacement)
  steps : List Step

/-- Visit the targets of replacements in turn until one leads to the word. -/
def plainAll (visit : Form → Plain) : List Replacement → Plain
  | [] => ⟨none, []⟩
  | r :: rest =>
    let p := visit r.target
    match p.path with
    | some path => ⟨some (r :: path), p.steps⟩
    | none => ⟨(plainAll visit rest).path, p.steps ++ (plainAll visit rest).steps⟩

/-- Visit a form at a depth. As in `explore`, the first number is the number of replacements left
plus one, and zero where the depth is beyond the bound. -/
def plain (replacements : Form → List Replacement) (word : Form) : Nat → Nat → Form → Plain
  | 0, _, _ => ⟨none, []⟩
  | left + 1, depth, form =>
    if form = word then ⟨some [], [⟨depth, form, true⟩]⟩
    else
      let p := plainAll (plain replacements word left (depth + 1)) (replacements form)
      ⟨p.path, ⟨depth, form, false⟩ :: p.steps⟩

theorem plainAll_of_some {visit : Form → Plain} {r : Replacement} {path : List Replacement}
    (h : (visit r.target).path = some path) (rest : List Replacement) :
    plainAll visit (r :: rest) = ⟨some (r :: path), (visit r.target).steps⟩ := by
  simp only [plainAll, h]

theorem plainAll_of_none {visit : Form → Plain} {r : Replacement}
    (h : (visit r.target).path = none) (rest : List Replacement) :
    plainAll visit (r :: rest) =
      ⟨(plainAll visit rest).path, (visit r.target).steps ++ (plainAll visit rest).steps⟩ := by
  simp only [plainAll, h]

/-- A path that was found begins with a replacement whose target leads to the word, and the steps
taken there come last. -/
theorem plainAll_path_eq_some {visit : Form → Plain} {rs path : List Replacement}
    (h : (plainAll visit rs).path = some path) :
    ∃ r ∈ rs, ∃ rest front, path = r :: rest ∧ (visit r.target).path = some rest ∧
      (plainAll visit rs).steps = front ++ (visit r.target).steps := by
  induction rs with
  | nil => cases h
  | cons r rs ih =>
    cases hv : (visit r.target).path with
    | some rest =>
      rw [plainAll_of_some hv] at h ⊢
      cases h
      exact ⟨r, List.mem_cons_self, rest, [], rfl, hv, rfl⟩
    | none =>
      rw [plainAll_of_none hv] at h ⊢
      obtain ⟨r', hr', rest, front, he, hp, hs⟩ := ih h
      exact ⟨r', List.mem_cons_of_mem _ hr', rest, (visit r.target).steps ++ front, he, hp,
        by rw [hs, List.append_assoc]⟩

end Search

open Search

namespace Grammar

variable {g : Grammar} {w : Form}

/-- Search for a derivation of a word with at most `bound` replacements, leaving nothing out. -/
def plainSearch (g : Grammar) (word : Form) (bound : Nat) : Plain :=
  plain g.replacements word (bound + 1) 0 g.startForm

/-- **A path of the plain search leads to the word**, within the replacements that were left. -/
theorem plain_leads (left depth : Nat) (form : Form) (rs : List Replacement)
    (h : (plain g.replacements w left depth form).path = some rs) :
    g.Leads rs form w ∧ rs.length < left ∧
      (plain g.replacements w left depth form).steps.getLast? =
        some ⟨depth + rs.length, w, true⟩ := by
  induction left generalizing depth form rs with
  | zero => cases h
  | succ left ih =>
    rw [plain] at h ⊢
    by_cases hw : form = w
    · subst hw
      rw [if_pos rfl] at h ⊢
      cases h
      exact ⟨.nil form, Nat.succ_pos _, rfl⟩
    · rw [if_neg hw] at h ⊢
      obtain ⟨r, hr, rest, front, rfl, hp, hs⟩ := plainAll_path_eq_some h
      obtain ⟨hl, hlen, hlast⟩ := ih (depth + 1) r.target rest hp
      refine ⟨.cons hr hl, Nat.succ_lt_succ hlen, ?_⟩
      have hd : depth + (r :: rest).length = depth + 1 + rest.length := by
        rw [List.length_cons]
        omega
      rw [List.getLast?_cons, hs, List.getLast?_append, hlast, hd]
      rfl

/-- Where the search may give a form up, the plain search finds nothing. -/
theorem plain_path_eq_none (hg : g.WellFormed) {bound left depth : Nat} {form : Form}
    (hd : depth + left = bound + 1) (h : g.OutOfReach w bound depth form) :
    (plain g.replacements w left depth form).path = none := by
  cases hp : (plain g.replacements w left depth form).path with
  | none => rfl
  | some rs =>
    obtain ⟨hl, hlen, -⟩ := plain_leads left depth form rs hp
    exact absurd (hl.derives hg) (h rs.length (by omega))

/-- A visit that skips its form agrees with the plain search where that finds nothing. -/
theorem skip_agrees {cut : Bool} {memo : Memo} {p : Plain} (h : p.path = none) :
    (Visit.skip cut memo).path = p.path ∧ (Visit.skip cut memo).steps.Sublist p.steps :=
  ⟨h.symm, List.nil_sublist _⟩

/-- **The search does what the plain search does**, with steps left out: it finds the same path,
given that the memo is right about what cannot become the word within the bound. -/
theorem explore_plain (hg : g.WellFormed) {bound : Nat} (left depth : Nat) (form : Form)
    (memo : Memo) (hd : depth + left = bound + 1)
    (hm : Upholds (g.OutOfReach w bound) memo) :
    (explore (g.query w) left depth form memo).path =
        (plain g.replacements w left depth form).path ∧
      (explore (g.query w) left depth form memo).steps.Sublist
        (plain g.replacements w left depth form).steps := by
  have hR := givesUp_outOfReach hg w bound
  have hB := bounds_outOfReach (g := g) w bound
  revert hd hm
  refine explore_induct (q := g.query w)
    (P := fun left depth form memo v => depth + left = bound + 1 →
      Upholds (g.OutOfReach w bound) memo →
      v.path = (plain g.replacements w left depth form).path ∧
        v.steps.Sublist (plain g.replacements w left depth form).steps)
    (Q := fun left depth rs memo v => depth + left = bound →
      Upholds (g.OutOfReach w bound) memo →
      v.path = (plainAll (plain g.replacements w left (depth + 1)) rs).path ∧
        v.steps.Sublist (plainAll (plain g.replacements w left (depth + 1)) rs).steps)
    ?deep ?short ?long ?known ?found ?expanded ?nothing ?through ?next left depth form memo
  case deep =>
    intro depth form memo _ _
    exact skip_agrees rfl
  case short =>
    intro left depth form memo hs hd _
    exact skip_agrees (plain_path_eq_none hg hd (hR.short depth form hs))
  case long =>
    intro left depth form memo _ hl hd _
    exact skip_agrees (plain_path_eq_none hg hd (hB.long depth left form (by omega) hl))
  case known =>
    intro left depth form memo _ _ hk hd hm
    exact skip_agrees (plain_path_eq_none hg hd (hm.of_covers hR.later hk))
  case found =>
    intro left depth memo _ _ _ _
    have hp : plain g.replacements w (left + 1) depth w = ⟨some [], [⟨depth, w, true⟩]⟩ := by
      rw [plain, if_pos rfl]
    show some [] = (plain g.replacements w (left + 1) depth w).path ∧
      List.Sublist [⟨depth, w, true⟩] (plain g.replacements w (left + 1) depth w).steps
    rw [hp]
    exact ⟨rfl, List.Sublist.refl _⟩
  case expanded =>
    intro left depth form memo v _ _ _ hw _ tried hd hm
    obtain ⟨hp, hs⟩ := tried (by omega) hm
    have hw' : form ≠ w := hw
    rw [plain, if_neg hw']
    exact ⟨hp, hs.cons_cons _⟩
  case nothing =>
    intro left depth memo _ _
    exact skip_agrees rfl
  case through =>
    intro left depth r rest memo v path _ hpath visited hd hm
    obtain ⟨hp, hs⟩ := visited (by omega) hm
    rw [plainAll_of_some (hp ▸ hpath)]
    exact ⟨rfl, hs⟩
  case next =>
    intro left depth r rest memo v w' hv hnone visited _ tried hd hm
    obtain ⟨hp, hs⟩ := visited (by omega) hm
    -- What the visit has left in the memo is right, so the rest may rely on it.
    have hmv := (explore_gives_up hR left (depth + 1) r.target memo (by omega) hm fun _ => hB).1
    rw [← hv] at hmv
    obtain ⟨hp', hs'⟩ := tried hd hmv
    rw [plainAll_of_none (hp ▸ hnone)]
    exact ⟨hp', hs.append hs'⟩

end Grammar

namespace Analysis

open Grammar

/-- **The search refines the plain search.** Both find the same chain of replacements, if any, and
both end on the word at the depth that is its length. The steps of the search are a
subsequence of those of the plain search, and so is the trace of the analysis. -/
theorem run_refines_plain {g : Grammar} (hg : g.Reachable) (hv : g.isValid = true) (bound : Nat)
    (word : Text) (j : Journal) :
    (j.IsOpen → ∃ r, (run { grammar := g } bound word j).1 = .ok r) ∧
    (∀ r, (run { grammar := g } bound word j).1 = .ok r →
      (r.verdict = .member ↔ (g.plainSearch word bound).path.isSome = true) ∧
      r.trace.Sublist ((g.plainSearch word bound).steps.map Step.line)) ∧
    (g.search word bound).path = (g.plainSearch word bound).path ∧
    (g.search word bound).steps.Sublist (g.plainSearch word bound).steps ∧
    ∀ rs, (g.plainSearch word bound).path = some rs →
      g.Leads rs g.startForm word ∧ rs.length ≤ bound ∧
      (g.search word bound).steps.getLast? = some ⟨rs.length, word, true⟩ ∧
      (g.plainSearch word bound).steps.getLast? = some ⟨rs.length, word, true⟩ := by
  obtain ⟨hpath, hsteps⟩ := explore_plain (w := word) hg.wellFormed (bound + 1) 0 g.startForm ∅
    (Nat.zero_add _) upholds_empty
  refine ⟨fun hj => ⟨_, run_of_isOpen hv bound word hj⟩, fun r hr => ⟨?_, ?_⟩, hpath, hsteps,
    fun rs hrs => ?_⟩
  · rw [result_of_isValid hv hr, verdict_ofVisit, Visit.verdict_eq_member_iff]
    exact iff_of_eq (congrArg (fun p => Option.isSome p = true) hpath)
  · rw [result_of_isValid hv hr, trace_ofVisit]
    exact hsteps.map Step.line
  · obtain ⟨hl, hlen, hlast⟩ := plain_leads (bound + 1) 0 g.startForm rs hrs
    obtain ⟨-, -, hlast'⟩ := explore_leads (bound + 1) 0 g.startForm ∅ rs (hpath.trans hrs)
    rw [Nat.zero_add] at hlast hlast'
    exact ⟨hl, Nat.le_of_lt_succ hlen, hlast', hlast⟩

/-- Of the fifteen steps of the plain search, the search takes six. -/
theorem run_refines_plain_doubling :
    (doubling.search ['a', 'a'] 3).steps.length = 6 ∧
      (doubling.plainSearch ['a', 'a'] 3).steps.length = 15 ∧
      (doubling.search ['a', 'a'] 3).path = (doubling.plainSearch ['a', 'a'] 3).path ∧
      (doubling.search ['a', 'a'] 3).steps.Sublist (doubling.plainSearch ['a', 'a'] 3).steps := by
  have h := run_refines_plain doubling_reachable (by decide) 3 ['a', 'a'] none
  exact ⟨by decide, by decide, h.2.2.1, h.2.2.2.1⟩

end Analysis

end FormalGrammar
