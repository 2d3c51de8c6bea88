import FormalGrammar.Proofs.Trails

/-!
# Raising the bound

Two searches with different bounds need not go the same way: with more replacements left, a form
that was too long is searched first, and may fill the memo or lead to the word. Of a search that
was not cut this cannot happen, for no form was too long in it; it goes the same way under every
greater bound (`explore_add`). That a member stays one is due to its derivation, which is as short
as before (`search_path_isSome_iff`).

Main statement: `Analysis.verdict_of_le_bound`.
-/

namespace FormalGrammar

namespace Search

variable {q : Query}

/-- **A visit that is not cut goes the same way** with more replacements left. -/
theorem explore_add (left depth : Nat) (form : Form) (memo : Memo)
    (hc : (explore q left depth form memo).cut = false) (k : Nat) :
    explore q (left + k) depth form memo = explore q left depth form memo := by
  revert hc k
  refine explore_induct (q := q)
    (P := fun left depth form memo v => v.cut = false → ∀ k,
      explore q (left + k) depth form memo = v)
    (Q := fun left depth rs memo v => v.cut = false → ∀ k,
      tryAll (explore q (left + k) (depth + 1)) rs memo = v)
    ?deep ?short ?long ?known ?found ?expanded ?nothing ?through ?next left depth form memo
  case deep => exact fun _ _ _ hc => nomatch hc
  case long => exact fun _ _ _ _ _ _ hc => nomatch hc
  case short =>
    intro left depth form memo hs _ k
    rw [Nat.add_right_comm]
    exact explore_of_short hs
  case known =>
    intro left depth form memo hs hl hk _ k
    rw [Nat.add_right_comm]
    exact explore_of_known hs (by omega) hk
  case found =>
    intro left depth memo hs hk _ k
    rw [Nat.add_right_comm]
    exact explore_of_found hs (by omega) hk rfl
  case expanded =>
    intro left depth form memo v hs hl hk hw _ tried hc k
    rw [Nat.add_right_comm, explore_of_expanded hs (by omega) hk hw, tried hc k]
  case nothing => exact fun _ _ _ _ _ => rfl
  case through =>
    intro left depth r rest memo v path _ hp visited hc k
    have hv := visited hc k
    have hpath : (explore q (left + k) (depth + 1) r.target memo).path = some path := by rw [hv, hp]
    rw [tryAll_of_some hpath, hv]
  case next =>
    intro left depth r rest memo v w _ hp visited _ tried hc k
    obtain ⟨hcv, hcw⟩ := Bool.or_eq_false_iff.mp hc
    have hv := visited hcv k
    have hnone : (explore q (left + k) (depth + 1) r.target memo).path = none := by rw [hv, hp]
    rw [tryAll_of_none hnone, hv, tried hcw k]

end Search

open Search

namespace Grammar

variable {g : Grammar} {w : Form} {bound bound' n : Nat}

theorem search_eq_of_not_cut (hc : (g.search w bound).cut = false) (hle : bound ≤ bound') :
    g.search w bound' = g.search w bound := by
  obtain ⟨k, rfl⟩ := Nat.exists_eq_add_of_le hle
  rw [search, Nat.add_right_comm]
  exact explore_add (bound + 1) 0 g.startForm ∅ hc k

/-- The depth of a match is the number of rewrites in a derivation. -/
theorem derives_of_match (hg : g.WellFormed) {s : Step}
    (hlast : (g.search w bound).steps.getLast? = some s) (hm : s.isMatch = true) :
    s.depth ≤ bound ∧ g.Derives s.depth g.startForm w := by
  have hmember := (explore_marks (bound + 1) 0 g.startForm ∅).2.mpr ⟨s, hlast, hm⟩
  obtain ⟨rs, hrs⟩ := Option.isSome_iff_exists.mp ((Visit.verdict_eq_member_iff _).mp hmember)
  obtain ⟨hl, hlen, hword⟩ := explore_leads (bound + 1) 0 g.startForm ∅ rs hrs
  have heq := Option.some.inj (hlast.symm.trans hword)
  subst heq
  rw [Nat.zero_add]
  exact ⟨Nat.le_of_lt_succ hlen, hl.derives hg⟩

/-- A last line with a mark tells the depth of the match. -/
theorem derives_of_last_line (hg : g.WellFormed) {s : Char} (hs : g.start = some s)
    (h : ((g.search w bound).steps.map Step.line).getLast? = some (Step.line ⟨n, w, true⟩)) :
    n ≤ bound ∧ g.Derives n g.startForm w := by
  rw [List.getLast?_map] at h
  obtain ⟨t, hlast, hline⟩ := Option.map_eq_some_iff.mp h
  obtain ⟨hdepth, hrest⟩ := Step.parts_of_line_eq hline
  have ht : t.Usable := fun c hc =>
    hg.usable c ((search_orderly hg hs bound).2 t (List.mem_of_getLast? hlast) c hc)
  have hm : t.isMatch = true := by
    rw [Step.isMatch_iff_mem ht, hrest]
    simp [Step.mark]
  have hd : t.depth = n := hdepth
  exact hd ▸ derives_of_match hg hlast hm

theorem search_path_mono (hg : g.WellFormed) (hle : bound ≤ bound')
    (h : (g.search w bound).path.isSome = true) : (g.search w bound').path.isSome = true := by
  obtain ⟨n, hn, hd⟩ := (search_path_isSome_iff hg w bound).mp h
  exact (search_path_isSome_iff hg w bound').mpr ⟨n, Nat.le_trans hn hle, hd⟩

end Grammar

namespace Analysis

open Grammar

/-- **Raising the bound only settles what was inconclusive.** The analyses of any word in a valid
grammar answer if the log is open. Under a greater bound, the answer `nonMember` stays the same
answer, with the same trace, and `member` stays `member`. The last line of the trace of a member
tells the depth of its match, and the word is a member under every bound from that depth on. -/
theorem verdict_of_le_bound {g : Grammar} (hg : g.Reachable) (hv : g.isValid = true) (word : Text)
    {bound bound' : Nat} (hle : bound ≤ bound') (j j' : Journal) :
    (∀ bound j, Journal.IsOpen j → ∃ r, (run { grammar := g } bound word j).1 = .ok r) ∧
    ∀ r r', (run { grammar := g } bound word j).1 = .ok r →
      (run { grammar := g } bound' word j').1 = .ok r' →
      (r.verdict = .nonMember → r'.verdict = .nonMember ∧ r'.trace = r.trace ∧ r' = r) ∧
      (r.verdict = .member → r'.verdict = .member) ∧
      (r.verdict ≠ .inconclusive → r'.verdict = r.verdict) ∧
      (r'.verdict = .member → ∃ n, r'.trace.getLast? = some (Step.line ⟨n, word, true⟩)) ∧
      ∀ n, r'.trace.getLast? = some (Step.line ⟨n, word, true⟩) → n ≤ bound' ∧
        ∀ bound'' ≥ n, ∀ j'' r'', (run { grammar := g } bound'' word j'').1 = .ok r'' →
          r''.verdict = .member := by
  have hw := hg.wellFormed
  obtain ⟨s, hs⟩ := start_of_isValid hv
  refine ⟨fun bound j hj => exists_run _ bound word hj, fun r r' hr hr' => ?_⟩
  rw [result_of_isValid hv hr, result_of_isValid hv hr', verdict_ofVisit, verdict_ofVisit,
    trace_ofVisit, trace_ofVisit]
  have stays : (g.search word bound).verdict = .nonMember →
      g.search word bound' = g.search word bound := fun h =>
    search_eq_of_not_cut ((Visit.verdict_eq_nonMember_iff _).mp h).2 hle
  have member : (g.search word bound).verdict = .member →
      (g.search word bound').verdict = .member := by
    rw [Visit.verdict_eq_member_iff, Visit.verdict_eq_member_iff]
    exact search_path_mono hw hle
  refine ⟨fun h => ?_, member, fun h => ?_, fun h => ?_, fun n hn => ?_⟩
  · rw [stays h]
    exact ⟨h, rfl, rfl⟩
  · rcases (g.search word bound).verdict_cases with hm | hn | hi
    · rw [member hm, hm]
    · rw [stays hn]
    · exact absurd hi h
  · obtain ⟨rs, hrs⟩ := Option.isSome_iff_exists.mp ((Visit.verdict_eq_member_iff _).mp h)
    obtain ⟨-, -, hlast⟩ := explore_leads (bound' + 1) 0 g.startForm ∅ rs hrs
    refine ⟨0 + rs.length, ?_⟩
    rw [List.getLast?_map]
    exact congrArg (Option.map Step.line) hlast
  · obtain ⟨hbound, hd⟩ := derives_of_last_line hw hs hn
    refine ⟨hbound, fun bound'' hle'' j'' r'' hr'' => ?_⟩
    rw [result_of_isValid hv hr'', verdict_ofVisit, Visit.verdict_eq_member_iff]
    exact (search_path_isSome_iff hw word bound'').mpr ⟨n, hle'', hd⟩

/-- Of four replacements that are allowed, the word `aa` takes three; if five are, a longer form is
searched first, and leads to the word with the fifth. In the grammar of pairs `bS` is found under no
bound. -/
theorem verdict_of_le_bound_doubling :
    ((doubling.search ['a', 'a'] 4).steps.getLast? = some ⟨3, ['a', 'a'], true⟩ ∧
      (doubling.search ['a', 'a'] 5).steps.getLast? = some ⟨5, ['a', 'a'], true⟩ ∧
      ∃ r r', (run { grammar := doubling } 4 ['a', 'a'] none).1 = .ok r ∧
        (run { grammar := doubling } 5 ['a', 'a'] none).1 = .ok r' ∧ r'.verdict = r.verdict) ∧
    ∃ r, (run { grammar := pairs } 3 ['b', 'S'] none).1 = .ok r ∧ r.verdict = .nonMember ∧
      (run { grammar := pairs } 7 ['b', 'S'] none).1 = .ok r := by
  refine ⟨⟨by decide, by decide, ?_⟩, ?_⟩
  · obtain ⟨answers, compare⟩ := verdict_of_le_bound doubling_reachable (by decide) ['a', 'a']
      (show 4 ≤ 5 by decide) none none
    obtain ⟨r, hr⟩ := answers 4 none Journal.isOpen_none
    obtain ⟨r', hr'⟩ := answers 5 none Journal.isOpen_none
    refine ⟨r, r', hr, hr', (compare r r' hr hr').2.2.1 ?_⟩
    rw [result_of_isValid (by decide) hr]
    decide
  · obtain ⟨answers, compare⟩ := verdict_of_le_bound pairs_reachable (by decide) ['b', 'S']
      (show 3 ≤ 7 by decide) none none
    obtain ⟨r, hr⟩ := answers 3 none Journal.isOpen_none
    obtain ⟨r', hr'⟩ := answers 7 none Journal.isOpen_none
    have hn : r.verdict = .nonMember := by
      rw [result_of_isValid (by decide) hr]
      decide
    obtain ⟨-, -, rfl⟩ := (compare r r' hr hr').1 hn
    exact ⟨r', hr, hn, hr'⟩

end Analysis

end FormalGrammar
