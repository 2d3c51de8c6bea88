import FormalGrammar.Proofs.Remembering
import FormalGrammar.Proofs.TraceLines
import FormalGrammar.Proofs.Witnesses

/-!
# The trace of an analysis

The lines of a trace tell depths and forms in the order of the visits, and the visits can be told
from it: the visit that a line belongs to was begun from the nearest line before it that is one
level higher. A `Trail` is a trace put together in this way, visit by visit, with what the memo
adds: after a visit in vain, its forms come back at smaller depths only.

What a trail says of single lines is then read off it by their numbers: `Trail.follows`, that every
line but the first is one rewrite of the line that it follows, and `Trail.returns`, that a later
line is less deep than an earlier one with the same form unless it stands below that line.

Main statement: `Analysis.trace_of_run`.
-/

namespace FormalGrammar

open Search

namespace Grammar

/-! ## Trails -/

/-- What the visits begun from `form` at `depth` leave in a trace, one after the other. -/
inductive Trail (g : Grammar) : Nat → Form → List (Nat × Form) → Prop
  | nil (depth : Nat) (form : Form) : Trail g depth form []
  | cons {depth : Nat} {form f : Form} {inner rest : List (Nat × Form)} : g.Rewrites form f →
      Trail g (depth + 1) f inner → Trail g depth form rest →
      (∀ p ∈ (depth + 1, f) :: inner, ∀ p' ∈ rest, p'.2 = p.2 → p'.1 < p.1) →
      Trail g depth form ((depth + 1, f) :: inner ++ rest)

variable {g : Grammar} {w form : Form} {depth : Nat} {ps : List (Nat × Form)}

/-- **The steps of a visit are a trail.** -/
theorem explore_trail (hg : g.WellFormed) (left depth : Nat) (form : Form) (memo : Memo) :
    (explore (g.query w) left depth form memo).steps = [] ∨
      ∃ ps, (explore (g.query w) left depth form memo).steps.map Step.place = (depth, form) :: ps ∧
        g.Trail depth form ps := by
  refine explore_induct (q := g.query w)
    (P := fun _ depth form _ v => v.steps = [] ∨
      ∃ ps, v.steps.map Step.place = (depth, form) :: ps ∧ g.Trail depth form ps)
    (Q := fun _ depth rs _ v => ∀ form, (∀ r ∈ rs, r ∈ g.replacements form) →
      g.Trail depth form (v.steps.map Step.place))
    ?deep ?short ?long ?known ?found ?expanded ?nothing ?through ?next left depth form memo
  case deep => exact fun _ _ _ => .inl rfl
  case short => exact fun _ _ _ _ _ => .inl rfl
  case long => exact fun _ _ _ _ _ _ => .inl rfl
  case known => exact fun _ _ _ _ _ _ _ => .inl rfl
  case found => exact fun _ depth _ _ _ => .inr ⟨[], rfl, .nil depth w⟩
  case nothing => exact fun _ depth _ form _ => .nil depth form
  case expanded =>
    intro left depth form memo v _ _ _ _ _ tried
    exact .inr ⟨v.steps.map Step.place, rfl, tried form fun _ hr => hr⟩
  case through =>
    intro left depth r rest memo v path _ _ visited form hrs
    show g.Trail depth form (v.steps.map Step.place)
    rcases visited with hnil | ⟨ps, hps, htrail⟩
    · rw [hnil]
      exact .nil depth form
    · have hr := (rewrites_iff hg).mpr ⟨r, hrs r List.mem_cons_self, rfl⟩
      rw [hps, ← List.append_nil ps, ← List.cons_append]
      exact .cons hr htrail (.nil depth form) nofun
  case next =>
    intro left depth r rest memo v v' hv hp visited hv' tried form hrs
    have hrest := tried form fun r' hr' => hrs r' (List.mem_cons_of_mem r hr')
    show g.Trail depth form ((v.steps ++ v'.steps).map Step.place)
    rw [List.map_append]
    rcases visited with hnil | ⟨ps, hps, htrail⟩
    · rw [hnil]
      exact hrest
    · have hr := (rewrites_iff hg).mpr ⟨r, hrs r List.mem_cons_self, rfl⟩
      have hnoted : Noted (depth + 1) memo v := hv ▸ explore_noted left (depth + 1) r.target memo
      have hnoted' : Noted (depth + 1) v.memo v' :=
        hv' ▸ tryAll_noted (fun _ _ => explore_noted _ _ _ _) rest v.memo
      rw [hps]
      refine .cons hr htrail hrest fun p hpv p' hpv' hf => ?_
      rw [← hps] at hpv
      obtain ⟨s, hs, rfl⟩ := List.mem_map.mp hpv
      obtain ⟨s', hs', rfl⟩ := List.mem_map.mp hpv'
      exact hnoted.lt_of_form_eq hp hnoted' hs hs' hf

/-- Every line of a trail is deeper than the line that it was begun from. -/
theorem Trail.depth_lt (h : g.Trail depth form ps) : ∀ p ∈ ps, depth < p.1 := by
  induction h with
  | nil => simp
  | cons _ _ _ _ ihInner ihRest =>
    intro p hp
    rcases List.mem_append.mp hp with hp | hp
    · rcases List.mem_cons.mp hp with rfl | hp
      · exact Nat.lt_succ_self _
      · exact Nat.lt_of_succ_lt (ihInner p hp)
    · exact ihRest p hp

/-! ## Lines by their numbers -/

/-- Line `i` is the nearest line before line `j` that is one level higher. -/
def Parent (ps : List (Nat × Form)) (i j : Nat) : Prop :=
  i < j ∧ ∃ p q, ps[i]? = some p ∧ ps[j]? = some q ∧ p.1 + 1 = q.1 ∧
    ∀ k r, i < k → k < j → ps[k]? = some r → r.1 + 1 ≠ q.1

section

variable {α : Type} {x : α} {inner rest : List α} {k : Nat}

theorem line_cases (inner : List α) (k : Nat) :
    k = 0 ∨ (∃ m < inner.length, k = m + 1) ∨ ∃ m > 0, k = inner.length + m := by
  rcases Nat.eq_zero_or_pos k with hk | hk
  · exact .inl hk
  · rcases Nat.lt_or_ge inner.length k with hl | hl
    · exact .inr (.inr ⟨k - inner.length, by omega, by omega⟩)
    · exact .inr (.inl ⟨k - 1, by omega, by omega⟩)

theorem line_inner (h : k < inner.length) : (x :: (inner ++ rest))[k + 1]? = inner[k]? := by
  rw [List.getElem?_cons_succ, List.getElem?_append_left h]

theorem line_rest (h : 0 < k) :
    (x :: (inner ++ rest))[inner.length + k]? = (x :: rest)[k]? := by
  obtain ⟨k, rfl⟩ := Nat.exists_eq_succ_of_ne_zero (Nat.pos_iff_ne_zero.mp h)
  rw [Nat.add_succ, List.getElem?_cons_succ, List.getElem?_cons_succ,
    List.getElem?_append_right (Nat.le_add_right _ _), Nat.add_sub_cancel_left]

end

/-- Line `j`, which is `q`, is one rewrite of an earlier line that is one level higher, and nothing
less deep than `q` stands between. -/
def Follows (g : Grammar) (ps : List (Nat × Form)) (j : Nat) (q : Nat × Form) : Prop :=
  ∃ i p, i < j ∧ ps[i]? = some p ∧ p.1 + 1 = q.1 ∧ g.Rewrites p.2 q.2 ∧
    ∀ k r, i < k → k < j → ps[k]? = some r → q.1 ≤ r.1

section

variable {x q : Nat × Form} {inner rest : List (Nat × Form)} {j : Nat}

theorem Follows.within (h : g.Follows inner j q) (hj : j < inner.length) :
    g.Follows (x :: (inner ++ rest)) (j + 1) q := by
  obtain ⟨i, p, hi, hp, hd, hr, hbetween⟩ := h
  refine ⟨i + 1, p, by omega, ?_, hd, hr, fun k r hik hkj hk => ?_⟩
  · rw [line_inner (by omega)]
    exact hp
  · obtain ⟨k, rfl⟩ := Nat.exists_eq_succ_of_ne_zero (show k ≠ 0 by omega)
    rw [line_inner (by omega)] at hk
    exact hbetween k r (by omega) (by omega) hk

/-- Lines that are deeper than the one before them may be put in behind that one. -/
theorem Follows.behind (h : g.Follows (x :: rest) j q) (hdeep : ∀ r ∈ inner, x.1 < r.1) :
    g.Follows (x :: (inner ++ rest)) (inner.length + j) q := by
  obtain ⟨i, p, hi, hp, hd, hr, hbetween⟩ := h
  have later : ∀ k r, i < k → k < j →
      (x :: (inner ++ rest))[inner.length + k]? = some r → q.1 ≤ r.1 := by
    intro k r hik hkj hk
    rw [line_rest (by omega)] at hk
    exact hbetween k r hik hkj hk
  rcases Nat.eq_zero_or_pos i with rfl | hi0
  · cases hp
    refine ⟨0, x, by omega, rfl, hd, hr, fun k r hk hkj hkr => ?_⟩
    rcases line_cases inner k with rfl | ⟨k, hkl, rfl⟩ | ⟨k, hk0, rfl⟩
    · exact absurd hk (Nat.lt_irrefl 0)
    · rw [line_inner hkl] at hkr
      have hlt := hdeep r (List.mem_of_getElem? hkr)
      omega
    · exact later k r hk0 (by omega) hkr
  · refine ⟨_, p, Nat.add_lt_add_left hi _, (line_rest hi0).trans hp, hd, hr,
      fun k r hik hkj hkr => ?_⟩
    obtain ⟨k, rfl⟩ := Nat.exists_eq_add_of_le (show inner.length ≤ k by omega)
    exact later k r (by omega) (by omega) hkr

end

/-- **Every line but the first follows** an earlier one. -/
theorem Trail.follows (h : g.Trail depth form ps) {j : Nat} {q : Nat × Form} (hj : 0 < j)
    (hq : ((depth, form) :: ps)[j]? = some q) : g.Follows ((depth, form) :: ps) j q := by
  induction h generalizing j q with
  | nil depth form =>
    obtain ⟨j, rfl⟩ := Nat.exists_eq_succ_of_ne_zero (Nat.pos_iff_ne_zero.mp hj)
    cases hq
  | @cons depth form f inner rest hr hinner hrest hreturn ihInner ihRest =>
    rcases line_cases ((depth + 1, f) :: inner) j with rfl | ⟨j, hjl, rfl⟩ | ⟨j, hj0, rfl⟩
    · exact absurd hj (Nat.lt_irrefl 0)
    · rw [line_inner hjl] at hq
      rcases Nat.eq_zero_or_pos j with rfl | hj0
      · -- The first line of a visit follows the line that the visit was begun from.
        cases hq
        exact ⟨0, (depth, form), hj, rfl, rfl, hr, fun k _ hk hkj _ => by omega⟩
      · exact (ihInner hj0 hq).within hjl
    · rw [line_rest hj0] at hq
      refine (ihRest hj0 hq).behind fun r hm => ?_
      exact (Trail.cons hr hinner hrest hreturn).depth_lt r (List.mem_append_left _ hm)

/-- **A form comes back at a smaller depth, or below itself**, where all lines are deeper. -/
theorem Trail.returns (h : g.Trail depth form ps) {i j : Nat} {p q : Nat × Form} (hij : i < j)
    (hp : ((depth, form) :: ps)[i]? = some p) (hq : ((depth, form) :: ps)[j]? = some q)
    (hf : q.2 = p.2) :
    q.1 < p.1 ∨ ∀ k r, i < k → k ≤ j → ((depth, form) :: ps)[k]? = some r → p.1 < r.1 := by
  induction h generalizing i j p q with
  | nil depth form =>
    obtain ⟨j, rfl⟩ := Nat.exists_eq_succ_of_ne_zero (show j ≠ 0 by omega)
    cases hq
  | @cons depth form f inner rest hr hinner hrest hreturn ihInner ihRest =>
    rcases line_cases ((depth + 1, f) :: inner) i with rfl | ⟨i, hil, rfl⟩ | ⟨i, hi0, rfl⟩
    · cases hp
      refine .inr fun k r hk _ hkr => ?_
      obtain ⟨k, rfl⟩ := Nat.exists_eq_succ_of_ne_zero (Nat.pos_iff_ne_zero.mp hk)
      exact (Trail.cons hr hinner hrest hreturn).depth_lt r (List.mem_of_getElem? hkr)
    · rw [line_inner hil] at hp
      rcases line_cases ((depth + 1, f) :: inner) j with rfl | ⟨j, hjl, rfl⟩ | ⟨j, hj0, rfl⟩
      · omega
      · rw [line_inner hjl] at hq
        refine (ihInner (by omega) hp hq hf).imp_right fun deeper k r hik hkj hk => ?_
        obtain ⟨k, rfl⟩ := Nat.exists_eq_succ_of_ne_zero (show k ≠ 0 by omega)
        rw [line_inner (by omega)] at hk
        exact deeper k r (by omega) (by omega) hk
      · -- The two lines belong to different visits.
        rw [line_rest hj0] at hq
        obtain ⟨j, rfl⟩ := Nat.exists_eq_succ_of_ne_zero (Nat.pos_iff_ne_zero.mp hj0)
        exact .inl (hreturn p (List.mem_of_getElem? hp) q (List.mem_of_getElem? hq) hf)
    · rcases line_cases ((depth + 1, f) :: inner) j with rfl | ⟨j, hjl, rfl⟩ | ⟨j, hj0, rfl⟩
      · omega
      · omega
      · rw [line_rest hi0] at hp
        rw [line_rest hj0] at hq
        refine (ihRest (by omega) hp hq hf).imp_right fun deeper k r hik hkj hk => ?_
        obtain ⟨k, rfl⟩ := Nat.exists_eq_add_of_le
          (show ((depth + 1, f) :: inner).length ≤ k by omega)
        rw [line_rest (by omega)] at hk
        exact deeper k r (by omega) (by omega) hk

/-- The parent is the line that is followed. -/
theorem Follows.parent {j : Nat} {q : Nat × Form} (h : g.Follows ps j q) (hq : ps[j]? = some q) :
    ∃ i p, Parent ps i j ∧ ps[i]? = some p ∧ g.Rewrites p.2 q.2 ∧
      ∀ k r, i < k → k < j → ps[k]? = some r → q.1 ≤ r.1 := by
  obtain ⟨i, p, hi, hp, hd, hr, hbetween⟩ := h
  refine ⟨i, p, ⟨hi, p, q, hp, hq, hd, fun k r hik hkj hk => ?_⟩, hp, hr, hbetween⟩
  have hle := hbetween k r hik hkj hk
  omega

/-- Where every line but the first follows an earlier one, a line is an ancestor of the lines
after it up to the next that is not deeper. -/
theorem transGen_parent (follows : ∀ j q, 0 < j → ps[j]? = some q → g.Follows ps j q) {i j : Nat}
    {p q : Nat × Form} (hij : i < j) (hp : ps[i]? = some p) (hq : ps[j]? = some q)
    (deeper : ∀ k r, i < k → k ≤ j → ps[k]? = some r → p.1 < r.1) :
    Relation.TransGen (Parent ps) i j := by
  induction j using Nat.strongRecOn generalizing q with
  | ind j ih =>
    obtain ⟨i', p', hparent, hp', -, hbetween⟩ := (follows j q (by omega) hq).parent hq
    rcases Nat.lt_trichotomy i' i with hi | rfl | hi
    · -- Line `i` would stand between a line and its parent, and be less deep than both.
      have hle := hbetween i p hi hij hp
      have hlt := deeper j q hij (Nat.le_refl j) hq
      omega
    · exact .single hparent
    · refine .tail (ih i' hparent.1 hi hp' fun k r hik hk => ?_) hparent
      exact deeper k r hik (Nat.le_trans hk (Nat.le_of_lt hparent.1))

/-! ## Order -/

/-- The order in which the lines of a trace stand. -/
structure Orderly (g : Grammar) (bound : Nat) (ps : List (Nat × Form)) : Prop where
  nodup : ps.Nodup
  first : ∀ p, ps[0]? = some p → ∃ s, g.start = some s ∧ p = (0, [s])
  depth_le : ∀ p ∈ ps, p.1 ≤ bound
  /-- Every later line is one rewrite of its parent, and nothing less deep stands between. -/
  rewritten : ∀ j q, 0 < j → ps[j]? = some q →
    ∃ i p, Parent ps i j ∧ ps[i]? = some p ∧ g.Rewrites p.2 q.2 ∧
      ∀ k r, i < k → k < j → ps[k]? = some r → q.1 ≤ r.1
  /-- A form comes back at a smaller depth or below itself. -/
  returns : ∀ i j p q, i < j → ps[i]? = some p → ps[j]? = some q → q.2 = p.2 →
    q.1 < p.1 ∨ Relation.TransGen (Parent ps) i j

theorem orderly_nil (g : Grammar) (bound : Nat) : Orderly g bound [] where
  nodup := List.nodup_nil
  first := nofun
  depth_le := nofun
  rewritten := nofun
  returns := nofun

theorem Trail.orderly {s : Char} {bound : Nat} (h : g.Trail 0 [s] ps) (hs : g.start = some s)
    (hle : ∀ p ∈ (0, [s]) :: ps, p.1 ≤ bound) : g.Orderly bound ((0, [s]) :: ps) where
  nodup := by
    refine List.nodup_iff_getElem?_ne_getElem?.mpr fun i j hij hj heq => ?_
    have hq := List.getElem?_eq_getElem hj
    rcases h.returns hij (heq.trans hq) hq rfl with hlt | deeper
    · exact Nat.lt_irrefl _ hlt
    · exact Nat.lt_irrefl _ (deeper j _ hij (Nat.le_refl j) hq)
  first := by
    rintro p ⟨⟩
    exact ⟨s, hs, rfl⟩
  depth_le := hle
  rewritten j q hj hq := (h.follows hj hq).parent hq
  returns i j p q hij hp hq hf :=
    (h.returns hij hp hq hf).imp_right
      (transGen_parent (fun _ _ => h.follows) hij hp hq)

/-! ## Searches -/

theorem explore_depth_lt {q : Query} (left depth : Nat) (form : Form) (memo : Memo) :
    ∀ s ∈ (explore q left depth form memo).steps, s.depth < depth + left := by
  refine explore_induct (q := q) (P := fun left depth _ _ v => ∀ s ∈ v.steps, s.depth < depth + left)
    (Q := fun left depth _ _ v => ∀ s ∈ v.steps, s.depth < depth + 1 + left)
    ?deep ?short ?long ?known ?found ?expanded ?nothing ?through ?next left depth form memo
  case deep => exact fun _ _ _ => nofun
  case short => exact fun _ _ _ _ _ => nofun
  case long => exact fun _ _ _ _ _ _ => nofun
  case known => exact fun _ _ _ _ _ _ _ => nofun
  case nothing => exact fun _ _ _ => nofun
  case found =>
    rintro left depth memo - - s hs
    rw [List.mem_singleton.mp hs]
    exact Nat.lt_add_of_pos_right (Nat.succ_pos left)
  case expanded =>
    rintro left depth form memo v - - - - - tried s hs
    rcases List.mem_cons.mp hs with rfl | hs
    · exact Nat.lt_add_of_pos_right (Nat.succ_pos left)
    · have hlt := tried s hs
      omega
  case through => exact fun _ _ _ _ _ _ _ _ _ visited => visited
  case next =>
    intro left depth r rest memo v w _ _ visited _ tried s hs
    exact (List.mem_append.mp hs).elim (visited s) (tried s)

/-- Rewriting declared symbols gives declared symbols. -/
theorem Rewrites.declared {f f' : Form} (hr : g.Rewrites f f') (hg : g.WellFormed)
    (hf : ∀ c ∈ f, g.declares c = true) : ∀ c ∈ f', g.declares c = true := by
  cases hr with
  | replace before x body after hn hp =>
    obtain ⟨bodies, hrule, hbody⟩ := mem_productions_iff.mp hp
    intro c hc
    simp only [List.mem_append] at hc
    rcases hc with (hc | hc) | hc
    · exact hf c (List.mem_append_left _ hc)
    · exact hg.declared _ hrule body hbody c hc
    · exact hf c (List.mem_append_right _ (List.mem_cons_of_mem x hc))

theorem Trail.declared (h : g.Trail depth form ps) (hg : g.WellFormed)
    (hf : ∀ c ∈ form, g.declares c = true) : ∀ p ∈ ps, ∀ c ∈ p.2, g.declares c = true := by
  induction h with
  | nil => simp
  | cons hr _ _ _ ihInner ihRest =>
    have hf' := hr.declared hg hf
    intro p hp
    rcases List.mem_append.mp hp with hp | hp
    · rcases List.mem_cons.mp hp with rfl | hp
      · exact hf'
      · exact ihInner hf' p hp
    · exact ihRest hf p hp

/-- **The steps of a search stand in order**, and their forms have declared symbols only. -/
theorem search_orderly (hg : g.WellFormed) {s : Char} (hs : g.start = some s) (bound : Nat) :
    g.Orderly bound ((g.search w bound).steps.map Step.place) ∧
      ∀ t ∈ (g.search w bound).steps, ∀ c ∈ t.form, g.declares c = true := by
  have hstart := startForm_of_start hs
  rcases explore_trail (w := w) hg (bound + 1) 0 g.startForm ∅ with hnil | ⟨ps, hps, htrail⟩
  · rw [search, hnil]
    exact ⟨orderly_nil g bound, fun t ht => absurd ht List.not_mem_nil⟩
  · rw [hstart] at hps htrail
    have hle : ∀ p ∈ (0, [s]) :: ps, p.1 ≤ bound := by
      rw [← hps]
      intro p hp
      obtain ⟨t, ht, rfl⟩ := List.mem_map.mp hp
      have hlt := explore_depth_lt (bound + 1) 0 [s] ∅ t ht
      rw [Nat.zero_add] at hlt
      exact Nat.le_of_lt_succ hlt
    rw [search, hstart]
    refine ⟨hps ▸ htrail.orderly hs hle, fun t ht => ?_⟩
    have hmem : t.place ∈ (0, [s]) :: ps := hps ▸ List.mem_map_of_mem ht
    have hdeclared : ∀ c ∈ [s], g.declares c = true := by
      rintro c hc
      rw [List.mem_singleton.mp hc]
      exact declares_iff.mpr (.inr (hg.start_mem s hs))
    rcases List.mem_cons.mp hmem with heq | hmem
    · have hform : t.form = [s] := congrArg Prod.snd heq
      rw [hform]
      exact hdeclared
    · exact htrail.declared hg hdeclared t.place hmem

end Grammar

/-! ## Marks -/

/-- **Only the last step has a mark**, and it has one exactly for a member. -/
theorem Search.explore_marks {q : Query} (left depth : Nat) (form : Form) (memo : Memo) :
    (∀ s ∈ (explore q left depth form memo).steps.dropLast, s.isMatch = false) ∧
      ((explore q left depth form memo).verdict = .member ↔
        ∃ s, (explore q left depth form memo).steps.getLast? = some s ∧ s.isMatch = true) := by
  obtain ⟨front, hsteps⟩ := explore_steps (q := q) left depth form memo
  have hpassing : ∀ s ∈ front.map Step.passing, s.isMatch = false := by
    intro s hs
    obtain ⟨p, -, rfl⟩ := List.mem_map.mp hs
    rfl
  rw [Visit.verdict_eq_member_iff, hsteps]
  cases hp : (explore q left depth form memo).path with
  | none =>
    simp only [Visit.arrival, hp, Option.map_none, Option.toList_none, List.append_nil,
      Option.isSome_none, Bool.false_eq_true, false_iff, not_exists, not_and]
    refine ⟨fun s hs => hpassing s (List.dropLast_subset _ hs), fun s hs => ?_⟩
    rw [hpassing s (List.mem_of_getLast? hs)]
    decide
  | some rs =>
    simp only [Visit.arrival, hp, Option.map_some, Option.toList_some, List.dropLast_concat,
      List.getLast?_concat, Option.isSome_some, true_iff]
    exact ⟨hpassing, _, rfl, rfl⟩

namespace Analysis

open Grammar

variable {b : RuleBook} {bound : Nat} {word : Text} {j : Journal} {r : Result}

/-- **The trace of an analysis is in order.** The analysis of any word with a valid grammar answers
if the log is open. Whatever the answer, its trace can be read in one way only, as a list of
depths and forms with a mark on some. The depths and forms are `Orderly`; a mark stands on the last
line only, and there exactly if the verdict is `member`. -/
theorem trace_of_run (hg : b.grammar.Reachable) (hv : b.grammar.isValid = true) (bound : Nat)
    (word : Text) (j : Journal) :
    (j.IsOpen → ∃ r, (run b bound word j).1 = .ok r) ∧
    ∀ r, (run b bound word j).1 = .ok r → ∃ steps : List Step,
      (∀ steps', Tells r.trace steps' ↔ steps' = steps) ∧
      b.grammar.Orderly bound (steps.map Step.place) ∧
      (∀ s ∈ steps.dropLast, s.isMatch = false) ∧
      (r.verdict = .member ↔ ∃ s, steps.getLast? = some s ∧ s.isMatch = true) := by
  obtain ⟨s, hs⟩ := start_of_isValid hv
  refine ⟨exists_run b bound word, fun r hr => ?_⟩
  have hnil : ∀ steps', Tells [] steps' ↔ steps' = [] := fun steps' =>
    ⟨fun h => List.map_eq_nil_iff.mp h.2.symm, fun h => h ▸ ⟨nofun, rfl⟩⟩
  rcases result_of_run hr with rfl | ⟨f, rfl⟩ | rfl
  · exact ⟨[], hnil, orderly_nil _ bound, nofun, nofun, nofun⟩
  · exact ⟨[], hnil, orderly_nil _ bound, nofun, nofun, nofun⟩
  · obtain ⟨horder, hdeclared⟩ := search_orderly (w := word) hg.wellFormed hs bound
    have htells : Tells (Result.ofVisit word b.grammar.startForm (b.grammar.search word bound)).trace
        (b.grammar.search word bound).steps :=
      ⟨fun t ht c hc => hg.wellFormed.usable c (hdeclared t ht c hc), rfl⟩
    exact ⟨_, fun steps' => ⟨fun h => h.unique htells, fun h => h ▸ htells⟩, horder,
      explore_marks (bound + 1) 0 b.grammar.startForm ∅⟩

/-- In the search for `aa` the form `SS` comes back at a greater depth, which it may as it stands
below itself. -/
theorem trace_of_run_doubling :
    ∃ r, (run { grammar := doubling } 3 ['a', 'a'] none).1 = .ok r ∧
      r.trace = ["0. S".toList, "1. SS".toList, "2. SSS".toList, "3. SS".toList, "2. aS".toList,
        "3. aa (match)".toList] ∧
      ∃ steps, Tells r.trace steps ∧ doubling.Orderly 3 (steps.map Step.place) := by
  obtain ⟨answers, order⟩ := trace_of_run (b := { grammar := doubling }) doubling_reachable
    (by decide) 3 ['a', 'a'] none
  obtain ⟨r, hr⟩ := answers Journal.isOpen_none
  obtain ⟨steps, htells, horder, -⟩ := order r hr
  refine ⟨r, hr, ?_, steps, (htells steps).mpr rfl, horder⟩
  rw [result_of_isValid (by decide) hr]
  decide

end Analysis

end FormalGrammar
